/-
**Chains of nodes in a memory.**

A singly linked list is a set of nodes in a memory, each with a payload and a pointer to the next
one.  `NodeChain.Leads` says which nodes one comes by on the way from one pointer to another;
everything that a list operation does to the memory — a node linked at the end, a node taken out in
the middle — is then a statement about such ways and their parts.

That a chain comes to its end is all that has to be known of it: its nodes are determined by the
pointer it starts from, and it does not come by a node twice.

* `NodeChain.Leads` — the nodes on the way from one pointer to another;
* `NodeChain.leads_append` — a way is composed of its parts;
* `NodeChain.Leads.congr` — it depends on the nodes it comes by only;
* `NodeChain.Leads.link` — changing the pointer of the last node changes where it leads to;
* `NodeChain.Leads.unique`, `NodeChain.Leads.nodup` — a way that ends **is determined by its
  start**, and comes by each of its nodes **once**.
-/

import Mathlib.Data.List.AList

set_option relaxedAutoImplicit false
set_option autoImplicit false

namespace NodeChain

/-- A node: its payload, and the next node. -/
structure Node (α δ : Type) where
  data : δ
  next : Option α
  deriving DecidableEq

variable {α δ : Type}

/-- The nodes `l`, with their payloads, are those on the way from the pointer `p` to the pointer
`q`; `cell` is the memory. -/
def Leads (cell : α → Option (Node α δ)) : Option α → List (α × δ) → Option α → Prop
  | p, [], q => p = q
  | p, x :: l, q => p = some x.1 ∧ ∃ next, cell x.1 = some ⟨x.2, next⟩ ∧ Leads cell next l q

variable {cell cell' : α → Option (Node α δ)} {p q r : Option α} {l l₁ l₂ : List (α × δ)}
  {a : α} {d : δ}

@[simp] theorem leads_nil : Leads cell p [] q ↔ p = q := Iff.rfl

@[simp] theorem leads_cons {x : α × δ} :
    Leads cell p (x :: l) q ↔
      p = some x.1 ∧ ∃ next, cell x.1 = some ⟨x.2, next⟩ ∧ Leads cell next l q := Iff.rfl

/-- **A way is composed of its parts.** -/
theorem leads_append :
    Leads cell p (l₁ ++ l₂) q ↔ ∃ r, Leads cell p l₁ r ∧ Leads cell r l₂ q := by
  induction l₁ generalizing p with
  | nil => simp
  | cons x l₁ ih =>
      rw [List.cons_append, leads_cons]
      constructor
      · rintro ⟨hp, next, hx, h⟩
        obtain ⟨r, h₁, h₂⟩ := ih.1 h
        exact ⟨r, ⟨hp, next, hx, h₁⟩, h₂⟩
      · rintro ⟨r, ⟨hp, next, hx, h₁⟩, h₂⟩
        exact ⟨hp, next, hx, ih.2 ⟨r, h₁, h₂⟩⟩

/-- A way to a last node. -/
theorem leads_snoc :
    Leads cell p (l ++ [(a, d)]) q ↔ Leads cell p l (some a) ∧ cell a = some ⟨d, q⟩ := by
  rw [leads_append]
  constructor
  · rintro ⟨r, h, hr, next, ha, rfl⟩
    exact ⟨hr ▸ h, ha⟩
  · rintro ⟨h, ha⟩
    exact ⟨some a, h, rfl, q, ha, rfl⟩

namespace Leads

/-- On a way there are nodes only. -/
theorem live (h : Leads cell p l q) {x : α × δ} (hx : x ∈ l) :
    ∃ next, cell x.1 = some ⟨x.2, next⟩ := by
  induction l generalizing p with
  | nil => cases hx
  | cons y l ih =>
      obtain ⟨-, next, hy, h⟩ := h
      rcases List.mem_cons.1 hx with rfl | hx
      · exact ⟨next, hy⟩
      · exact ih h hx

/-- **A way depends on the nodes it comes by only.** -/
theorem congr (h : Leads cell p l q) (hsame : ∀ a ∈ l.map Prod.fst, cell' a = cell a) :
    Leads cell' p l q := by
  induction l generalizing p with
  | nil => exact h
  | cons x l ih =>
      obtain ⟨hp, next, hx, h⟩ := h
      refine ⟨hp, next, ?_, ih h fun a ha => hsame a (List.mem_cons_of_mem _ ha)⟩
      rw [hsame x.1 (List.mem_cons_self ..), hx]

/-- **Changing the pointer of the last node** changes where the way leads to. -/
theorem link (h : Leads cell p (l ++ [(a, d)]) q) (ha : a ∉ l.map Prod.fst)
    (hnew : cell' a = some ⟨d, r⟩) (hsame : ∀ b ∈ l.map Prod.fst, b ≠ a → cell' b = cell b) :
    Leads cell' p (l ++ [(a, d)]) r := by
  rw [leads_snoc] at h ⊢
  refine ⟨h.1.congr ?_, hnew⟩
  intro b hb
  exact hsame b hb fun hba => ha (hba ▸ hb)

/-- Where a way starts. -/
theorem start (h : Leads cell p l none) : p = l.head?.map Prod.fst := by
  cases l with
  | nil => exact h
  | cons x l => exact h.1

/-- **A way that ends is determined by its start.** -/
theorem unique (h₁ : Leads cell p l₁ none) (h₂ : Leads cell p l₂ none) : l₁ = l₂ := by
  induction l₁ generalizing p l₂ with
  | nil =>
      cases l₂ with
      | nil => rfl
      | cons y l₂ => cases (show p = none from h₁).symm.trans h₂.1
  | cons x l₁ ih =>
      obtain ⟨rfl, next, hx, h₁⟩ := h₁
      cases l₂ with
      | nil => cases (show some x.1 = none from h₂)
      | cons y l₂ =>
          obtain ⟨hp, next', hy, h₂⟩ := h₂
          have hfst : x.1 = y.1 := Option.some.inj hp
          rw [← hfst, hx] at hy
          obtain ⟨hsnd, rfl⟩ := Node.mk.inj (Option.some.inj hy)
          rw [ih h₁ h₂, Prod.ext hfst hsnd]

/-- **A way that ends comes by each of its nodes once**: otherwise what is behind the first visit
would be as long as what is behind the second. -/
theorem nodup (h : Leads cell p l none) : (l.map Prod.fst).Nodup := by
  induction l generalizing p with
  | nil => exact List.nodup_nil
  | cons x l ih =>
      obtain ⟨-, next, hx, h⟩ := h
      rw [List.map_cons, List.nodup_cons]
      refine ⟨?_, ih h⟩
      intro hmem
      obtain ⟨y, hy, hyx⟩ := List.mem_map.1 hmem
      obtain ⟨l₁, l₂, rfl⟩ := List.append_of_mem hy
      obtain ⟨r, -, -, next', hy', h₂⟩ := leads_append.1 h
      rw [hyx, hx] at hy'
      obtain ⟨-, rfl⟩ := Node.mk.inj (Option.some.inj hy')
      have hlen := congrArg List.length (h.unique h₂)
      rw [List.length_append, List.length_cons] at hlen
      omega

/-- A way that ends is no longer than the memory. -/
theorem length_le [DecidableEq α] {memory : AList fun _ : α => Node α δ}
    (h : Leads (fun a => memory.lookup a) p l none) : l.length ≤ memory.keys.length := by
  have hsub : l.map Prod.fst ⊆ memory.keys := by
    intro a ha
    obtain ⟨x, hx, rfl⟩ := List.mem_map.1 ha
    obtain ⟨next, hnext⟩ := h.live hx
    rw [← AList.mem_keys, ← AList.lookup_isSome, hnext]
    rfl
  have hle := (List.subperm_of_subset h.nodup hsub).length_le
  rwa [List.length_map] at hle

end Leads

end NodeChain
