/-
**The module, from load to load.**

A module is loaded and unloaded many times while the kernel runs: its static data is set up anew
each time, but what it has registered, and the memory that it has asked for, stay what they are
unless it gives them back.  `aesd_init_module` has an error path of its own, which has to undo the
first half; `aesd_cleanup_module` frees the slots of the ring and not the pending command.

Here the loads and unloads are steps between the calls.  An unload needs that no file is open, since
an open file holds a reference to the module.  The blocks that the driver has lost the last pointer
to are counted: a step that loses one says so.

* `Module`, `Module.init`, `Module.exit`, `moduleLife` — the module as a machine, and what a step
  loses;
* `Kernel.Orphan`, `Kernel.Inv.writeLocked_orphan` — the blocks that nothing points to, and what a
  write does to them;
* `Module.Inv`, `Module.Inv.step` — the invariant;
* `module_accounts` — **what is registered, and which blocks are lost**, over all loads;
* `logModule`, `module_refines_log` — **each load is a new log
device**. -/

import Aesd.CharDeviceUnload
import Aesd.LogDevice

set_option relaxedAutoImplicit false
set_option autoImplicit false

namespace Aesd

open TermLog

/-! ### The module -/

/-- What the kernel answers when a module is loaded: the results of `alloc_chrdev_region` and
`cdev_add`, which are never positive, and the major number. -/
structure LoadEnv where
  allocResult : ℤ
  major : ℕ
  addResult : ℤ
  alloc_le : allocResult ≤ 0
  add_le : addResult ≤ 0

/-- The module in the kernel: the device and the files, the major number, what the module has
registered, whether it is loaded, and the files that are open. -/
structure Module where
  sys : Sys
  aesdMajor : ℕ
  /-- The regions that were registered and not given back. -/
  regions : List ℕ
  /-- How many times the device was added and not deleted. -/
  cdevs : ℕ
  loaded : Bool
  opened : List ℕ

/-- The kernel before the first load. -/
def Module.boot : Module := ⟨Sys.init, 0, [], 0, false, []⟩

/-- `aesd_setup_cdev`. -/
def Module.setupCdev (env : LoadEnv) (m : Module) : Module × ℤ :=
  (if env.addResult = 0 then { m with cdevs := m.cdevs + 1 } else m, env.addResult)

/-- `unregister_chrdev_region`; a region that is not registered is a fault. -/
def Module.unregister (m : Module) (major : ℕ) : Option Module :=
  if major ∈ m.regions then some { m with regions := m.regions.erase major } else none

/-- The static data, set to zero and set up. -/
def Module.clear (m : Module) : Module := { m with sys.kern.dev := ⟨.zero, .init⟩ }

/-- `aesd_init_module`, with its result. -/
def Module.init (env : LoadEnv) (m : Module) : Option (Module × ℤ) :=
  -- the kernel leaves `dev` at zero if there is no region
  if env.allocResult < 0 then some ({ m with aesdMajor := 0 }, env.allocResult)
  else
    let m := { m with aesdMajor := env.major, regions := env.major :: m.regions }
    let (m, result) := m.clear.setupCdev env
    if result ≠ 0 then (m.unregister env.major).map fun m => (m, result) else some (m, result)

/-- `cdev_del`; a device that was not added is a fault. -/
def Module.cdevDel (m : Module) : Option Module :=
  if 0 < m.cdevs then some { m with cdevs := m.cdevs - 1 } else none

/-- `aesd_cleanup_module`. -/
def Module.exit (m : Module) : Option Module := do
  let m ← m.cdevDel
  let kern ← (aesdCleanupModule m.sys.kern).toOption
  ({ m with sys.kern := kern }).unregister m.aesdMajor

/-- What the kernel does with the module: it loads it, unloads it, or makes a call on a file. -/
inductive ModuleAct where
  | insmod (env : LoadEnv)
  | rmmod
  | call (c : Call)

/-- The file of a call. -/
def Call.on : Call → Option ℕ
  | .openFile f | .releaseFile f | .llseek f _ _ | .ioctl f _ _ => some f
  | .read f _ _ _ | .write f _ _ => f

/-- The files that are open when the kernel has made the call; there is none if it does not make it:
a file that is open is not opened, and all other calls are on files that are. -/
def Module.openedAfter (m : Module) : Call → Option (List ℕ)
  | .openFile f => if f ∈ m.opened then none else some (f :: m.opened)
  | .releaseFile f => if f ∈ m.opened then some (m.opened.erase f) else none
  | c => if ∃ f ∈ c.on, f ∈ m.opened then some m.opened else none

/-- One step, with its result. -/
def Module.step (M : ℕ) (m : Module) : ModuleAct → Option (Module × Reply)
  | .insmod env =>
      if m.loaded then none
      else (m.init env).map fun p => ({ p.1 with loaded := p.2 = 0 }, ⟨p.2, []⟩)
  | .rmmod =>
      if m.loaded ∧ m.opened = [] then
        m.exit.map fun m => ({ m with loaded := false }, ⟨0, []⟩)
      else none
  | .call c => do
      if m.loaded then
        let opened ← m.openedAfter c
        let (sys, r) ← (m.sys.call M c).toOption
        some ({ m with sys := sys, opened := opened }, r)
      else none

/-- The address of a block. -/
def KPtr.addr : KPtr → Option ℕ
  | .block a => some a
  | .null | .zeroSize => none

/-- The block that a step loses: the pending one, when the module is unloaded and when a request for
more memory for it is refused. -/
def Module.loses (M : ℕ) (m : Module) : ModuleAct → Option ℕ
  | .insmod _ => none
  | .rmmod => m.sys.kern.dev.bufEntry.buffptr.addr
  | .call c => if m.sys.Drops M c then m.sys.kern.dev.bufEntry.buffptr.addr else none

/-- **The module as a machine**; the output is the result of the step, and the block that it
loses. -/
def moduleLife (M : ℕ) : Machine Module ModuleAct (Reply × Option ℕ) where
  step m a := (m.step M a).map fun p => (p.1, p.2, m.loses M a)

/-- The blocks that were lost in a run. -/
def lostBlocks (t : List (ModuleAct × Reply × Option ℕ)) : List ℕ :=
  t.filterMap fun p => p.2.2

/-! ### Blocks without an owner -/

/-- The device points to the block. -/
def Kernel.Owns (k : Kernel) (a : ℕ) : Prop :=
  k.dev.bufEntry.buffptr = .block a ∨
    .block a ∈ k.dev.circularBuf.entries.map AesdBufferEntry.buffptr

/-- A block that is still allocated, and to which the device has no pointer. -/
def Kernel.Orphan (k : Kernel) (a : ℕ) : Prop := (k.heap.block a).isSome ∧ ¬ k.Owns a

/-- What is allocated when a block was given back. -/
theorem Heap.isSome_release {h : Heap} {p : KPtr} {b : ℕ} :
    ((h.release p).block b).isSome ↔ (h.block b).isSome ∧ p ≠ .block b := by
  constructor
  · intro hb
    obtain ⟨bs, hbs⟩ := Option.isSome_iff_exists.1 hb
    obtain ⟨hlive, hne⟩ := Heap.release_block_eq_some hbs
    exact ⟨by rw [hlive]; rfl, hne⟩
  · rintro ⟨hlive, hne⟩
    rwa [Heap.release_block_of_ne h hne]

/-- A block that moves leaves no orphan. -/
theorem Kernel.orphan_realloc {k : Kernel} {a : ℕ} (bs : List UInt8) (size : ℕ)
    (hfree : (k.heap.release k.dev.bufEntry.buffptr).block a = none) (b : ℕ) :
    (k.realloc a bs size).Orphan b ↔ k.Orphan b := by
  have hlive : ∀ b, b ≠ a → (((k.realloc a bs size).heap.block b).isSome ↔
      (k.heap.block b).isSome ∧ k.dev.bufEntry.buffptr ≠ .block b) := by
    intro b hne
    rw [Kernel.realloc, Heap.store_block_of_ne _ _ hne, Heap.isSome_release]
  constructor
  · rintro ⟨hb, hout⟩
    have hne : b ≠ a := by
      rintro rfl
      exact hout (Or.inl rfl)
    obtain ⟨hb, hpend⟩ := (hlive b hne).1 hb
    exact ⟨hb, fun howns => howns.elim hpend fun hring => hout (Or.inr hring)⟩
  · rintro ⟨hb, hout⟩
    have hpend : k.dev.bufEntry.buffptr ≠ .block b := fun hc => hout (Or.inl hc)
    have hne : b ≠ a := by
      rintro rfl
      have hsome := Heap.isSome_release.2 ⟨hb, hpend⟩
      rw [hfree] at hsome
      cases hsome
    refine ⟨(hlive b hne).2 ⟨hb, hpend⟩, ?_⟩
    rintro (hpend' | hring)
    · exact hne (KPtr.block.inj hpend').symm
    · exact hout (Or.inr hring)

/-- A pending block that is given back is none. -/
theorem Kernel.orphan_release (k : Kernel) {p : KPtr} (hp : ∀ a, p ≠ .block a) (size b : ℕ) :
    Kernel.Orphan ⟨k.heap.release k.dev.bufEntry.buffptr, { k.dev with bufEntry := ⟨p, size⟩ }⟩ b ↔
      k.Orphan b := by
  constructor
  · rintro ⟨hb, hout⟩
    obtain ⟨hb, hpend⟩ := Heap.isSome_release.1 hb
    exact ⟨hb, fun howns => howns.elim hpend fun hring => hout (Or.inr hring)⟩
  · rintro ⟨hb, hout⟩
    refine ⟨Heap.isSome_release.2 ⟨hb, fun hc => hout (Or.inl hc)⟩, ?_⟩
    rintro (hpend | hring)
    · exact hp b hpend
    · exact hout (Or.inr hring)

/-- A pending block whose pointer is overwritten is one. -/
theorem Kernel.Inv.orphan_drop {M : ℕ} {k : Kernel} (h : k.Inv M) (size b : ℕ) :
    Kernel.Orphan ⟨k.heap, { k.dev with bufEntry := ⟨.null, size⟩ }⟩ b ↔
      k.Orphan b ∨ k.dev.bufEntry.buffptr = .block b := by
  constructor
  · rintro ⟨hb, hout⟩
    by_cases hpend : k.dev.bufEntry.buffptr = .block b
    · exact Or.inr hpend
    · exact Or.inl ⟨hb, fun howns => howns.elim hpend fun hring => hout (Or.inr hring)⟩
  · rintro (⟨hb, hout⟩ | hpend)
    · exact ⟨hb, fun howns => howns.elim (fun hc => KPtr.noConfusion hc)
        fun hring => hout (Or.inr hring)⟩
    · have hvalid := h.valid
      have hapart := h.apart
      rw [hpend] at hvalid hapart
      exact ⟨hvalid, fun howns => howns.elim (fun hc => KPtr.noConfusion hc) hapart⟩

/-- The entry that is handed over is no longer pending. -/
theorem commitEntry_bufEntry {k k' : Kernel} (h : commitEntry k = .ok k') :
    k' = k ∨ k'.dev.bufEntry = .zero := by
  rw [commitEntry] at h
  split at h
  · cases h
  · split at h
    · refine Or.inr ?_
      dsimp only at h
      split at h
      · split at h
        · cases h
        · obtain rfl := Except.ok.inj h
          rfl
      · obtain rfl := Except.ok.inj h
        rfl
    · exact Or.inl (Except.ok.inj h).symm

/-- **Handing an entry over loses no block**: the one that the ring forgets is freed. -/
theorem commitEntry_orphan {k k' : Kernel} (hring : k.dev.circularBuf.Inv)
    (h : commitEntry k = .ok k') (b : ℕ) : k'.Orphan b ↔ k.Orphan b := by
  rcases commitEntry_cases h with rfl | ⟨hring', hheap⟩
  · exact Iff.rfl
  rcases commitEntry_bufEntry h with rfl | hzero
  · exact Iff.rfl
  have hentries : k'.dev.circularBuf.entries
      = TermLog.push 10 k.dev.circularBuf.entries k.dev.bufEntry := by
    rw [hring']
    exact hring.entries_addEntry _
  have hpend : k'.dev.bufEntry.buffptr ≠ .block b := by
    rw [hzero]
    exact KPtr.noConfusion
  rw [Kernel.Orphan, Kernel.Orphan, Kernel.Owns, Kernel.Owns, hheap, hentries, Heap.isSome_release]
  rcases hring.addEntry_snd k.dev.bufEntry with ⟨hfull, hnull⟩ | ⟨hst, o, es, hoes, hptr⟩
  · -- a free slot
    have hlt : k.dev.circularBuf.entries.length < 10 := by
      rw [AesdCircularBuffer.length_entries, hring.stored_of_not_full hfull]
      exact k.dev.circularBuf.in_lt
    rw [hnull, TermLog.push_of_lt _ hlt, List.map_append, List.mem_append, List.map_singleton,
      List.mem_singleton, or_iff_right hpend, or_comm (b := KPtr.block b = _),
      eq_comm (a := KPtr.block b)]
    exact and_congr_left fun _ => and_iff_left KPtr.noConfusion
  · -- the oldest command is evicted
    have hlen : k.dev.circularBuf.entries.length = 10 := by
      rw [AesdCircularBuffer.length_entries, hst]
    rw [hptr, TermLog.push_of_eq _ (by decide) hlen, hoes, List.tail_cons, List.map_append,
      List.mem_append, List.map_singleton, List.mem_singleton, List.map_cons, List.mem_cons,
      or_iff_right hpend, eq_comm (a := KPtr.block b), eq_comm (a := KPtr.block b), and_assoc]
    tauto

/-- **What a write does to the orphans**: the pending block becomes one if the request for more is
refused, and there is no other way. -/
theorem Kernel.Inv.writeLocked_orphan {M : ℕ} {env : WriteEnv} {k k' : Kernel} {data : List UInt8}
    {r : ℤ} (h : k.Inv M) (hw : writeLocked M env k data = .ok (k', r)) (b : ℕ) :
    k'.Orphan b ↔
      k.Orphan b ∨ (¬ k.WriteGranted M env data ∧ k.dev.bufEntry.buffptr = .block b) := by
  rw [writeLocked] at hw
  cases hgrow : growEntry M env k data with
  | error f => simp [hgrow] at hw
  | ok p =>
      obtain ⟨k₁, o⟩ := p
      simp only [hgrow] at hw
      rcases growEntry_cases h.valid h.size_lt hgrow with
        ⟨rfl, hg, rfl⟩ | ⟨hg, hn, rfl, ⟨rfl, hu⟩ | ⟨rfl, hsize⟩⟩ |
        ⟨a, bs, haddr, hg, hpos, hM, hfree, hlen, htake, ⟨rfl, hu, rfl⟩ |
          ⟨rfl, hu, hsum, happ, rfl⟩⟩
      · -- the allocator refuses
        cases hw
        rw [h.orphan_drop, and_iff_right hg]
      · -- a request for no byte
        cases hw
        rw [k.orphan_release (fun _ => KPtr.noConfusion), or_iff_left fun hc => hc.1 hg]
      · -- nothing asked for and nothing there
        simp [Aesd.commitEntry, Heap.load] at hw
      · -- the copy fails
        cases hw
        rw [Kernel.orphan_realloc bs _ hfree, or_iff_left fun hc => hc.1 hg]
      · -- the bytes arrive
        cases hcommit : Aesd.commitEntry (k.realloc a bs (k.newEntrySize data)) with
        | error f => simp [hcommit] at hw
        | ok k₂ =>
            simp only [hcommit] at hw
            cases hw
            rw [commitEntry_orphan (k := k.realloc a bs _) h.ring hcommit,
              Kernel.orphan_realloc bs _ hfree, or_iff_left fun hc => hc.1 hg]

/-- **One call**: what becomes an orphan is what the call drops. -/
theorem Sys.call_orphan {M : ℕ} {s s' : Sys} {c : Call} {r : Reply} (h : s.kern.Inv M)
    (hc : s.call M c = .ok (s', r)) (b : ℕ) :
    s'.kern.Orphan b ↔
      s.kern.Orphan b ∨ (s.Drops M c ∧ s.kern.dev.bufEntry.buffptr = .block b) := by
  by_cases hd : s.Drops M c
  · obtain ⟨data, env, hg, -, hw⟩ := hd.writeLocked hc
    rw [h.writeLocked_orphan hw, and_iff_right hg, and_iff_right hd]
  · rw [or_iff_left fun hc => hd hc.1]
    rcases Sys.call_kern hc with ⟨heq, -⟩ | ⟨f, data, env, rfl, hopen, hwait, -, -, hw⟩
    · rw [heq]
    · rw [h.writeLocked_orphan hw]
      refine or_iff_left fun ⟨hg, hpend⟩ => hd ⟨hopen, hwait, hg, ?_⟩
      exact KPtr.isBlock_iff.2 ⟨b, hpend⟩

/-- The slots hold the entries and nothing else. -/
theorem Kernel.Inv.inSlot_iff {M : ℕ} {k : Kernel} (h : k.Inv M) (a : ℕ) :
    k.InSlot a ↔ .block a ∈ k.dev.circularBuf.entries.map AesdBufferEntry.buffptr := by
  constructor
  · rintro ⟨i, hi⟩
    obtain ⟨j, hj, -⟩ := h.ring.exists_entry (i := i) (by rw [hi]; exact KPtr.noConfusion)
    exact List.mem_map.2 ⟨_, List.mem_of_getElem? hj, hi⟩
  · intro hmem
    obtain ⟨e, he, hea⟩ := List.mem_map.1 hmem
    obtain ⟨i, rfl⟩ := AesdCircularBuffer.exists_slot he
    exact ⟨i, hea⟩

theorem KPtr.addr_eq_some {p : KPtr} {a : ℕ} : p.addr = some a ↔ p = .block a := by
  cases p <;> simp [KPtr.addr]

/-- **What is left when the module is unloaded**: the orphans, and the pending block. -/
theorem Kernel.Inv.aesdCleanupModule_live {M : ℕ} {k : Kernel} (h : k.Inv M) :
    ∃ k', aesdCleanupModule k = .ok k' ∧ ∀ a, (k'.heap.block a).isSome ↔
      k.Orphan a ∨ k.dev.bufEntry.buffptr = .block a := by
  obtain ⟨k', hk', hdead, hkeep⟩ := h.aesdCleanupModule_eq
  refine ⟨k', hk', fun a => ?_⟩
  have hslot := h.inSlot_iff a
  by_cases hin : k.InSlot a
  · rw [hdead a hin]
    refine iff_of_false Bool.noConfusion ?_
    rintro (⟨-, hout⟩ | hpend)
    · exact hout (Or.inr (hslot.1 hin))
    · exact h.apart (hpend ▸ hslot.1 hin)
  · rw [hkeep a hin]
    constructor
    · intro hlive
      by_cases hpend : k.dev.bufEntry.buffptr = .block a
      · exact Or.inr hpend
      · exact Or.inl ⟨hlive, fun howns => howns.elim hpend fun hring => hin (hslot.2 hring)⟩
    · rintro (⟨hlive, -⟩ | hpend)
      · exact hlive
      · have hvalid := h.valid
        rwa [hpend] at hvalid

/-! ### Loading and unloading -/

/-- **Loading the module**: it ends with the region and the device, or, if one of them is refused,
with neither. -/
theorem Module.init_eq (env : LoadEnv) (m : Module) :
    m.init env = some (
      if env.allocResult < 0 then ({ m with aesdMajor := 0 }, env.allocResult)
      else if env.addResult ≠ 0 then
        ({ m.clear with aesdMajor := env.major }, env.addResult)
      else
        ({ m.clear with
          aesdMajor := env.major
          regions := env.major :: m.regions
          cdevs := m.cdevs + 1 }, 0)) := by
  unfold Module.init
  by_cases halloc : env.allocResult < 0
  · rw [if_pos halloc, if_pos halloc]
  rw [if_neg halloc, if_neg halloc]
  by_cases hadd : env.addResult = 0
  · simp [Module.setupCdev, Module.clear, hadd]
  · simp [Module.setupCdev, Module.clear, Module.unregister, hadd]

/-- What happens to the device and the result is what `aesdInitModule` says. -/
theorem Module.init_dev {env : LoadEnv} {m m' : Module} {r : ℤ} (h : m.init env = some (m', r)) :
    aesdInitModule m.sys.kern.dev env.allocResult env.addResult = (m'.sys.kern.dev, r) := by
  rw [Module.init_eq, Option.some.injEq] at h
  unfold aesdInitModule
  split at h
  · next halloc =>
      cases h
      rw [if_pos halloc]
  · next halloc =>
      rw [if_neg halloc]
      split at h
      · cases h
        rfl
      · next hadd =>
          cases h
          rw [not_not.1 hadd]
          rfl

/-- **Unloading the module** does not fail: what it deletes and gives back is there. -/
theorem Module.exit_eq {M : ℕ} {m : Module} (hkern : m.sys.kern.Inv M) (hcdevs : m.cdevs = 1)
    (hregions : m.regions = [m.aesdMajor]) :
    ∃ kern, aesdCleanupModule m.sys.kern = .ok kern ∧
      m.exit = some { m with sys.kern := kern, cdevs := 0, regions := [] } := by
  obtain ⟨kern, hcleanup, -⟩ := hkern.aesdCleanupModule_live
  refine ⟨kern, hcleanup, ?_⟩
  simp [Module.exit, Module.cdevDel, Module.unregister, hcdevs, hregions, hcleanup,
    Except.toOption]

/-- A device that was just set up, in whatever memory. -/
theorem Kernel.Inv.fresh (M : ℕ) (heap : Heap) : Kernel.Inv M ⟨heap, ⟨.zero, .init⟩⟩ where
  ring := AesdCircularBuffer.Inv.init
  commands _ he := absurd he List.not_mem_nil
  distinct := List.nodup_nil
  apart := List.not_mem_nil
  valid := trivial
  size_le := Nat.zero_le _
  size_lt := Nat.two_pow_pos 64

/-- It points to no block. -/
theorem Kernel.not_owns_fresh (heap : Heap) (a : ℕ) :
    ¬ Kernel.Owns ⟨heap, ⟨.zero, .init⟩⟩ a := by
  rintro (hpend | hring)
  · exact KPtr.noConfusion hpend
  · exact absurd hring List.not_mem_nil

/-! ### The invariant -/

/-- **The invariant of the module**: something is registered while it is loaded, and once; and the
blocks that were lost are those that are allocated and that it has no pointer to. -/
structure Module.Inv (M : ℕ) (lost : List ℕ) (m : Module) : Prop where
  cdevs : m.cdevs = if m.loaded then 1 else 0
  regions : m.regions = if m.loaded then [m.aesdMajor] else []
  kern : m.loaded = true → m.sys.kern.Inv M
  blocks : ∀ a, a ∈ lost ↔
    (m.sys.kern.heap.block a).isSome ∧ (m.loaded = true → ¬ m.sys.kern.Owns a)
  nodup : lost.Nodup

theorem Module.Inv.boot (M : ℕ) : Module.boot.Inv M [] where
  cdevs := rfl
  regions := rfl
  kern := Bool.noConfusion
  blocks _ := iff_of_false List.not_mem_nil fun hc => Bool.noConfusion hc.1
  nodup := List.nodup_nil

/-- A block that was not lost before is lost once. -/
theorem nodup_append_option {lost : List ℕ} (h : lost.Nodup) {o : Option ℕ}
    (ho : ∀ a, o = some a → a ∉ lost) : (lost ++ o.toList).Nodup := by
  cases o with
  | none => simpa using h
  | some a =>
      refine List.nodup_append.2 ⟨h, List.nodup_singleton a, ?_⟩
      rintro b hb c hc rfl
      exact ho a rfl (List.mem_singleton.1 hc ▸ hb)

theorem Module.Inv.insmod {M : ℕ} {lost : List ℕ} {m m' : Module} {env : LoadEnv} {r : Reply}
    (h : m.Inv M lost) (hstep : m.step M (.insmod env) = some (m', r)) : m'.Inv M lost := by
  rw [Module.step, Module.init_eq] at hstep
  split at hstep
  · cases hstep
  next hunloaded =>
  have hun : m.loaded = false := Bool.not_eq_true _ ▸ hunloaded
  obtain ⟨hcdevs, hregions, -, hlost, hnodup⟩ := h
  simp only [hun, Bool.false_eq_true, if_false, false_imp_iff, and_true] at hcdevs hregions hlost
  simp only [Option.map_some, Option.some.injEq, Prod.mk.injEq] at hstep
  obtain ⟨rfl, -⟩ := hstep
  by_cases halloc : env.allocResult < 0
  · have hfail : ¬ env.allocResult = 0 := by omega
    simp only [halloc, if_true]
    exact ⟨by simp [hcdevs, hfail], by simp [hregions, hfail], fun hc => by simp [hfail] at hc,
      fun a => by simp [hlost, hfail], hnodup⟩
  by_cases hadd : env.addResult = 0
  · simp only [halloc, hadd, if_false, ne_eq, not_true_eq_false, decide_true]
    refine ⟨by simp [hcdevs], by simp [hregions], fun _ => Kernel.Inv.fresh M _, fun a => ?_,
      hnodup⟩
    exact (hlost a).trans (and_iff_left fun _ => Kernel.not_owns_fresh _ a).symm
  · simp only [halloc, hadd, if_false, if_true, ne_eq, not_false_eq_true, decide_false]
    exact ⟨hcdevs, hregions, fun hc => Bool.noConfusion hc, fun a => by simp [hlost, Module.clear],
      hnodup⟩

theorem Module.Inv.rmmod {M : ℕ} {lost : List ℕ} {m m' : Module} {r : Reply} (h : m.Inv M lost)
    (hstep : m.step M .rmmod = some (m', r)) : m'.Inv M (lost ++ (m.loses M .rmmod).toList) := by
  rw [Module.step] at hstep
  split at hstep
  next hcond =>
    have hload := hcond.1
    obtain ⟨hcdevs, hregions, hkern, hlost, hnodup⟩ := h
    simp only [hload, if_true, true_imp_iff] at hcdevs hregions hlost
    obtain ⟨kern, hcleanup, hexit⟩ := Module.exit_eq (hkern hload) hcdevs hregions
    rw [hexit] at hstep
    cases hstep
    obtain ⟨kern', hcleanup', hlive⟩ := (hkern hload).aesdCleanupModule_live
    obtain rfl := Except.ok.inj (hcleanup.symm.trans hcleanup')
    refine ⟨rfl, rfl, fun hc => Bool.noConfusion hc, fun a => ?_, nodup_append_option hnodup ?_⟩
    · rw [List.mem_append, Option.mem_toList, Module.loses, KPtr.addr_eq_some, hlost]
      exact (hlive a).symm.trans (and_iff_left fun hc => Bool.noConfusion hc).symm
    · intro a ha hmem
      exact ((hlost a).1 hmem).2 (Or.inl (KPtr.addr_eq_some.1 ha))
  next => cases hstep

theorem Module.Inv.call {M : ℕ} {lost : List ℕ} {m m' : Module} {c : Call} {r : Reply}
    (h : m.Inv M lost) (hstep : m.step M (.call c) = some (m', r)) :
    m'.Inv M (lost ++ (m.loses M (.call c)).toList) := by
  rw [Module.step] at hstep
  split at hstep
  next hload =>
    simp only [Option.bind_eq_bind, Option.bind_eq_some_iff] at hstep
    obtain ⟨opened, -, ⟨sys, r'⟩, hcall, heq⟩ := hstep
    cases heq
    have hc : m.sys.call M c = .ok (sys, r') := by
      cases hres : m.sys.call M c with
      | error f => rw [hres] at hcall; cases hcall
      | ok p => rw [hres] at hcall; cases hcall; rfl
    obtain ⟨hcdevs, hregions, hkern, hlost, hnodup⟩ := h
    have horphan := Sys.call_orphan (hkern hload) hc
    simp only [hload, true_imp_iff] at hlost
    refine ⟨hcdevs, hregions, fun _ => (hkern hload).call hc, fun a => ?_,
      nodup_append_option hnodup ?_⟩
    · have hiff : a ∈ lost ++ (m.loses M (.call c)).toList ↔ sys.kern.Orphan a := by
        rw [horphan, List.mem_append, hlost, Option.mem_toList, Module.loses]
        by_cases hd : m.sys.Drops M c
        · simp [hd, KPtr.addr_eq_some, Kernel.Orphan]
        · simp [hd, Kernel.Orphan]
      rw [hiff]
      simp [hload, Kernel.Orphan]
    · intro a ha hmem
      rw [Module.loses] at ha
      split at ha
      · exact ((hlost a).1 hmem).2 (Or.inl (KPtr.addr_eq_some.1 ha))
      · cases ha
  next => cases hstep

/-- **Every step keeps the invariant**, with what it loses. -/
theorem Module.Inv.step {M : ℕ} {lost : List ℕ} {m m' : Module} {a : ModuleAct} {r : Reply}
    (h : m.Inv M lost) (hstep : m.step M a = some (m', r)) :
    m'.Inv M (lost ++ (m.loses M a).toList) := by
  cases a with
  | insmod env => simpa [Module.loses] using h.insmod hstep
  | rmmod => exact h.rmmod hstep
  | call c => exact h.call hstep

theorem moduleLife_step {M : ℕ} {m m' : Module} {a : ModuleAct} {o : Reply × Option ℕ}
    (h : (moduleLife M).step m a = some (m', o)) :
    m.step M a = some (m', o.1) ∧ o.2 = m.loses M a := by
  obtain ⟨⟨m₁, r⟩, hstep, heq⟩ := Option.map_eq_some_iff.1 h
  cases heq
  exact ⟨hstep, rfl⟩

theorem lostBlocks_snoc (t : List (ModuleAct × Reply × Option ℕ)) (a : ModuleAct) (r : Reply)
    (o : Option ℕ) : lostBlocks (t ++ [(a, r, o)]) = lostBlocks t ++ o.toList := by
  cases o <;> simp [lostBlocks]

theorem Module.Inv.trace {M : ℕ} {t : List (ModuleAct × Reply × Option ℕ)} {m : Module}
    (h : (moduleLife M).Trace Machine.free Module.boot t m) : m.Inv M (lostBlocks t) := by
  induction h with
  | nil => exact .boot M
  | @snoc t m m' a o _ _ hstep ih =>
      obtain ⟨hstep, hloses⟩ := moduleLife_step hstep
      rw [lostBlocks_snoc, hloses]
      exact ih.step hstep

/-- **What the module has registered, and what it has lost.**  In every run of loads, successful or
not, calls and unloads: the region and the device are registered once while the module is loaded and
not at all while it is not; unloading a module without open files never fails; and the blocks that
are allocated are those that the loaded module has a pointer to and, without any overlap, those that
some step has lost: an unload with a pending command, or a write whose request for more memory for
the pending command was refused. -/
theorem module_accounts {M : ℕ} {t : List (ModuleAct × Reply × Option ℕ)} {m : Module}
    (h : (moduleLife M).Trace Machine.free Module.boot t m) :
    m.cdevs = (if m.loaded then 1 else 0) ∧
    m.regions = (if m.loaded then [m.aesdMajor] else []) ∧
    (m.loaded = true → m.opened = [] → ∃ m', m.step M .rmmod = some (m', ⟨0, []⟩)) ∧
    (lostBlocks t).Nodup ∧
    (∀ a ∈ lostBlocks t, m.loaded = true → ¬ m.sys.kern.Owns a) ∧
    ∀ a, (m.sys.kern.heap.block a).isSome ↔
      a ∈ lostBlocks t ∨ (m.loaded = true ∧ m.sys.kern.Owns a) := by
  obtain ⟨hcdevs, hregions, hkern, hlost, hnodup⟩ := Module.Inv.trace h
  refine ⟨hcdevs, hregions, ?_, hnodup, fun a ha => ((hlost a).1 ha).2, ?_⟩
  · intro hload hopened
    simp only [hload, if_true] at hcdevs hregions
    obtain ⟨kern, -, hexit⟩ := Module.exit_eq (hkern hload) hcdevs hregions
    exact ⟨_, by rw [Module.step, if_pos ⟨hload, hopened⟩, hexit, Option.map_some]⟩
  · intro a
    rw [hlost]
    constructor
    · intro hlive
      by_cases hcond : m.loaded = true ∧ m.sys.kern.Owns a
      · exact Or.inr hcond
      · exact Or.inl ⟨hlive, fun hload howns => hcond ⟨hload, howns⟩⟩
    · rintro (⟨hlive, -⟩ | ⟨hload, hpend | hring⟩)
      · exact hlive
      · have hvalid := (hkern hload).valid
        rwa [hpend] at hvalid
      · obtain ⟨e, he, hea⟩ := List.mem_map.1 hring
        obtain ⟨b, bs, hb, hlive⟩ := ((hkern hload).commands e he).live
        obtain rfl := KPtr.block.inj (hea.symm.trans hb)
        rw [hlive]
        rfl

/-- A load that fails half-way, and one that succeeds; a line is written, and half of another; the
module is unloaded and loaded once more.  The half is lost. -/
theorem module_accounts_two_loads :
    ∃ (t : List (ModuleAct × Reply × Option ℕ)) (m : Module),
      (moduleLife 64).Trace Machine.free Module.boot t m ∧ m.loaded = true ∧
      m.aesdMajor = 242 ∧ m.regions = [242] ∧ lostBlocks t = [1] ∧
      ∀ a, (m.sys.kern.heap.block a).isSome ↔
        a ∈ [1] ∨ (m.loaded = true ∧ m.sys.kern.Owns a) := by
  have hex : ∃ p, (moduleLife 64).run Module.boot
      [.insmod ⟨0, 240, -12, by decide, by decide⟩, .insmod ⟨0, 241, 0, by decide, by decide⟩,
        .call (.openFile 0),
        .call (.write (some 0) (some [97, 10]) ⟨false, ⟨some 0, fun _ => 7⟩, 0⟩),
        .call (.write (some 0) (some [98]) ⟨false, ⟨some 1, fun _ => 7⟩, 0⟩),
        .call (.releaseFile 0), .rmmod, .insmod ⟨0, 242, 0, by decide, by decide⟩] = some p :=
    Option.isSome_iff_exists.1 (by decide +kernel)
  obtain ⟨⟨m, os⟩, hrun⟩ := hex
  have hload : m.loaded = true := Machine.run_map hrun (fun p => p.1.loaded) rfl
  have hmajor : m.aesdMajor = 242 := Machine.run_map hrun (fun p => p.1.aesdMajor) rfl
  have hos : os = [(⟨-12, []⟩, none), (⟨0, []⟩, none), (⟨0, []⟩, none), (⟨2, []⟩, none),
      (⟨1, []⟩, none), (⟨0, []⟩, none), (⟨0, []⟩, some 1), (⟨0, []⟩, none)] :=
    Machine.run_map hrun Prod.snd (by decide +kernel)
  subst hos
  have htrace := Machine.trace_of_run hrun (Machine.passes_free _ _)
  obtain ⟨-, hregions, -, -, -, hblocks⟩ := module_accounts htrace
  rw [hload, if_pos rfl, hmajor] at hregions
  exact ⟨_, m, htrace, hload, hmajor, hregions, rfl, hblocks⟩

/-! ### Each load is a new device -/

/-- A log device that can be loaded and unloaded. -/
structure LogModule where
  loaded : Bool
  sys : LogSys

/-- A load, with its result, an unload, or a call, with whether its request for memory is
granted. -/
inductive LogAct where
  | load (result : ℤ)
  | unload
  | call (c : Call) (granted : Bool)

/-- A load that succeeds starts with an empty log, whatever was there before. -/
def LogModule.step (s : LogModule) : LogAct → Option (LogModule × Reply)
  | .load result =>
      if s.loaded then none
      else some (if result = 0 then ⟨true, ⟨empty, s.sys.file⟩⟩ else s, ⟨result, []⟩)
  | .unload => if s.loaded then some ({ s with loaded := false }, ⟨0, []⟩) else none
  | .call c granted =>
      if s.loaded then
        let (sys, r) := s.sys.call granted c
        some ({ s with sys := sys }, r)
      else none

/-- A step as the log device sees it. -/
def seenStep : ModuleAct × Reply × Option ℕ → LogAct × Reply
  | (.insmod _, r, _) => (.load r.retval, r)
  | (.rmmod, r, _) => (.unload, r)
  | (.call c, r, _) => (.call c.blind r.granted, r)

/-- No write loses pending bytes. -/
def Module.Keeps (M : ℕ) (m : Module) : ModuleAct → Prop
  | .call c => ¬ m.sys.Loses M c
  | _ => True

instance Module.decidableKeeps (M : ℕ) (m : Module) : (a : ModuleAct) → Decidable (m.Keeps M a)
  | .call c => inferInstanceAs (Decidable (¬ m.sys.Loses M c))
  | .insmod _ | .rmmod => isTrue trivial

/-- A log device that has the log of the module, if that is loaded. -/
structure Module.Views (M : ℕ) (m : Module) (x : LogModule) : Prop where
  loaded : x.loaded = m.loaded
  file : x.sys.file = m.sys.file
  fPos : ∀ f, IsPos (m.sys.file f).fPos
  views : m.loaded = true → m.sys.Views M ∧ x.sys = m.sys.view

theorem Module.exit_file {m m' : Module} (h : m.exit = some m') : m'.sys.file = m.sys.file := by
  simp only [Module.exit, Module.cdevDel, Module.unregister, Option.bind_eq_bind,
    Option.bind_eq_some_iff, Option.ite_none_right_eq_some, Option.some.injEq] at h
  obtain ⟨_, ⟨-, rfl⟩, kern, -, -, rfl⟩ := h
  rfl

/-- **One step.** -/
theorem Module.Views.step {M : ℕ} (hM : 10 * M < 2 ^ 31) {m m' : Module} {x : LogModule}
    {a : ModuleAct} {r : Reply} {o : Option ℕ} (h : m.Views M x) (hok : m.Keeps M a)
    (hstep : m.step M a = some (m', r)) :
    ∃ x', x.step (seenStep (a, r, o)).1 = some (x', r) ∧ m'.Views M x' := by
  obtain ⟨hloaded, hfile, hpos, hviews⟩ := h
  cases a with
  | insmod env =>
      rw [Module.step, Module.init_eq] at hstep
      split at hstep
      · cases hstep
      next hunloaded =>
      have hun : m.loaded = false := Bool.not_eq_true _ ▸ hunloaded
      simp only [Option.map_some, Option.some.injEq, Prod.mk.injEq] at hstep
      obtain ⟨rfl, rfl⟩ := hstep
      simp only [seenStep, LogModule.step, hloaded, hun, Bool.false_eq_true, if_false]
      refine ⟨_, rfl, ?_⟩
      by_cases halloc : env.allocResult < 0
      · have hfail : ¬ env.allocResult = 0 := by omega
        simp only [halloc, if_true, hfail, if_false, decide_false]
        exact ⟨hloaded.trans hun, hfile, hpos, fun hc => Bool.noConfusion hc⟩
      by_cases hadd : env.addResult = 0
      · simp only [halloc, hadd, if_false, if_true, ne_eq, not_true_eq_false, decide_true]
        exact ⟨rfl, hfile, hpos, fun _ => ⟨⟨Kernel.Inv.fresh M _, rfl, Good.empty _ _, hpos⟩,
          by rw [hfile]; rfl⟩⟩
      · simp only [halloc, hadd, if_false, if_true, ne_eq, not_false_eq_true, decide_false]
        exact ⟨hloaded.trans hun, hfile, hpos, fun hc => Bool.noConfusion hc⟩
  | rmmod =>
      rw [Module.step] at hstep
      split at hstep
      next hcond =>
        obtain ⟨m₁, hexit, heq⟩ := Option.map_eq_some_iff.1 hstep
        cases heq
        have hsame := Module.exit_file hexit
        refine ⟨{ x with loaded := false }, ?_, rfl, hfile.trans hsame.symm, ?_,
          fun hc => Bool.noConfusion hc⟩
        · simp only [seenStep, LogModule.step, hloaded, hcond.1, if_true]
        · rw [hsame]
          exact hpos
      next => cases hstep
  | call c =>
      rw [Module.step] at hstep
      split at hstep
      next hload =>
        simp only [Option.bind_eq_bind, Option.bind_eq_some_iff] at hstep
        obtain ⟨opened, -, ⟨sys, r'⟩, hcall, heq⟩ := hstep
        cases heq
        obtain ⟨hview, hx⟩ := hviews hload
        obtain ⟨hview', heq⟩ := hview.step hM hok (charDev_step.1 hcall)
        refine ⟨⟨true, sys.view⟩, ?_, ?_⟩
        · simp only [seenStep, LogModule.step, hloaded, hload, if_true, hx, heq]
        · exact ⟨hload.symm, rfl, hview'.fPos, fun _ => ⟨hview', rfl⟩⟩
      next => cases hstep

end Aesd
