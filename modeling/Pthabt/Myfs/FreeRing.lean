import Pthabt.Myfs.Threads
import Pthabt.Myfs.Conservation

/-! The free ring under concurrent allocation and release. An allocation may take a position
that a release has reserved and not yet stored, and then it hands out what was in the cell. In
the runs where the accesses keep to the order of the reservations each block has one holder: a
table entry, a cell of the ring, or an allocation that has loaded it. -/

namespace Pthabt.Myfs

open Lib Run

variable {N : ℕ}

namespace ThreadPc

/-- The number of the cell that is to be stored. -/
def writes : ThreadPc → Option ℕ
  | .loadBlock _ _ _ p | .setCell _ _ _ p _ => some p
  | _ => none

/-- The number of the cell that is to be loaded. -/
def reads : ThreadPc → Option ℕ
  | .loadCell _ _ _ p => some p
  | _ => none

/-- The number of the block that is to be stored in a table. -/
def hands : ThreadPc → Option ℕ
  | .setBlock _ _ p _ => some p
  | _ => none

/-- The file whose mutex the thread holds. -/
def file : ThreadPc → Option ℕ
  | .test i _ | .loadRp i _ | .casRp i _ _ | .loadCell i _ _ _ | .setBlock i _ _ _ | .loadNBlock i _
  | .setNBlock i _ _ | .unlockFile i _ => some i
  | _ => none

/-- The thread holds `myfs_mutex`. -/
def unlinks : ThreadPc → Bool
  | .lock _ => false
  | pc => pc.inUnlink

/-- The entry that the thread has found unmapped and is to map. -/
def blank : ThreadPc → Option (ℕ × ℕ)
  | .loadRp i b | .casRp i b _ | .loadCell i b _ _ | .setBlock i b _ _ => some (i, b)
  | _ => none

/-- The thread is to clear an entry whose block it has stored in the ring. -/
def clears : ThreadPc → Bool
  | .clear _ _ => true
  | _ => false

/-- The place says nothing about the blocks. -/
def quiet : ThreadPc → Bool
  | .loadRp _ _ | .casRp _ _ _ | .loadCell _ _ _ _ | .setBlock _ _ _ _ | .setCell _ _ _ _ _ => false
  | _ => true

/-- The cell in a thread is that of its number. -/
def Slot (N : ℕ) : ThreadPc → Prop
  | .loadCell _ _ oldVal p | .loadBlock _ _ oldVal p | .setCell _ _ oldVal p _ => oldVal = p % N
  | _ => True

/-- Files and indices exist. -/
def Range : ThreadPc → Prop
  | .lockFile i b | .test i b | .loadRp i b | .casRp i b _ | .loadCell i b _ _ | .setBlock i b _ _ =>
    i < maxFiles ∧ b < maxBlocksPerFile
  | .setCell fd j _ _ _ => fd < maxFiles ∧ j < maxBlocksPerFile
  | .lock fd | .loop fd _ | .loadWp fd _ | .casWp fd _ _ | .loadBlock fd _ _ _ | .clear fd _ =>
    fd < maxFiles
  | _ => True

end ThreadPc

/-- The threads in the critical sections hold the mutexes. -/
structure Locks (s : Threads N) : Prop where
  file : ∀ t i, (s.pc t).file = some i → s.fileMutex i = some t
  mutex : ∀ t, (s.pc t).unlinks = true → s.mutex = some t

/-- The cells are accessed in the order of their numbers. -/
structure Numbers (s : Threads N) : Prop where
  shared : s.tickets.Shared s.fs.sb.free (fun t => (s.pc t).writes) fun t => (s.pc t).reads
  slot : ∀ t, (s.pc t).Slot N

/-- Where a block can be. -/
inductive Holder where
  | table (i b : ℕ)
  | ring (p : ℕ)
  | thread (t : ℕ)

/-- The holder has the block `v`. A table entry that is released has it no more. -/
def Has (s : Threads N) (v : ℤ) : Holder → Prop
  | .table i b =>
    i < maxFiles ∧ b < maxBlocksPerFile ∧ (∀ t, s.pc t ≠ .clear i b) ∧ s.block i b = v
  | .ring p => s.tickets.entry p = some v ∧ s.tickets.loaded p = false
  | .thread t => ∃ i b p, s.pc t = .setBlock i b p v

/-- Each block has one holder, and allocations hand out what they have loaded, once. -/
structure Blocks (s : Threads N) : Prop where
  range : ∀ t, (s.pc t).Range
  blank : ∀ t i b, (s.pc t).blank = some (i, b) → s.block i b = inactiveBlock
  release : ∀ t fd j oldVal p v, s.pc t = .setCell fd j oldVal p v →
    v = inactiveBlock ∨ s.block fd j = v
  pending : ∀ t i b p v, s.pc t = .setBlock i b p v →
    s.tickets.entry p = some v ∧ s.tickets.loaded p = true ∧ p ∉ s.handed.map Prod.fst
  hands : Distinct fun t => (s.pc t).hands
  stored : ∀ p v, (p, v) ∈ s.handed → s.tickets.entry p = some v ∧ s.tickets.loaded p = true
  once : (s.handed.map Prod.fst).Nodup
  single : ∀ h k v, v ≠ inactiveBlock → Has s v h → Has s v k → h = k

/-- Invariant of ordered runs. -/
structure ThreadInv (s : Threads N) : Prop where
  locks : Locks s
  numbers : Numbers s
  blocks : Blocks s

theorem Blocks.handedOut {s : Threads N} (h : Blocks s) : HandedOut s where
  stored p v hmem := (h.stored p v hmem).1
  once := h.once
  single i b k l hi hb hk hl hne heq := by
    by_cases hclear : ∃ t, s.pc t = .clear i b ∨ s.pc t = .clear k l
    · exact .inr hclear
    · push Not at hclear
      have hij : Has s (s.block i b) (.table i b) := ⟨hi, hb, fun t => (hclear t).1, rfl⟩
      have hkl : Has s (s.block i b) (.table k l) := ⟨hk, hl, fun t => (hclear t).2, heq.symm⟩
      have := h.single _ _ _ hne hij hkl
      injection this with hik hbl
      exact .inl ⟨hik, hbl⟩

/-! ### Mutexes -/

section Steps

variable {s s' : Threads N} {t : ℕ} {pc : ThreadPc}

/-- The places of all threads, after one went to `pc`. -/
theorem forall_place {P : ℕ → ThreadPc → Prop} {g : ℕ → ThreadPc} (h : ∀ u, u ≠ t → P u (g u))
    (hpc : P t pc) : ∀ u, P u (Function.update g t pc u) := by
  intro u
  by_cases hu : u = t
  · subst hu
    rwa [Function.update_self]
  · rw [Function.update_of_ne hu]
    exact h u hu

/-- A step in which no mutex changes hands. -/
theorem locks_goto (h : Locks s) (hpc : s'.pc = Function.update s.pc t pc)
    (hf : s'.fileMutex = s.fileMutex) (hm : s'.mutex = s.mutex)
    (hfile : ∀ i, pc.file = some i → (s.pc t).file = some i)
    (hunlinks : pc.unlinks = true → (s.pc t).unlinks = true) : Locks s' where
  file := by
    rw [hpc, hf]
    apply forall_place (P := fun u x => ∀ i, x.file = some i → s.fileMutex i = some u)
    · exact fun u _ => h.file u
    · exact fun i hi => h.file t i (hfile i hi)
  mutex := by
    rw [hpc, hm]
    apply forall_place (P := fun u x => x.unlinks = true → s.mutex = some u)
    · exact fun u _ => h.mutex u
    · exact fun hu => h.mutex t (hunlinks hu)

theorem locks_lockFile (h : Locks s) {i b : ℕ} (hpc : s.pc t = .lockFile i b)
    (hfree : s.fileMutex i = none) :
    Locks ({ s with fileMutex := Function.update s.fileMutex i (some t) }.goto t (.test i b)) where
  file := by
    change ∀ u k, (Function.update s.pc t _ u).file = some k →
      Function.update s.fileMutex i (some t) k = some u
    apply forall_place (P := fun u x => ∀ k, x.file = some k →
      Function.update s.fileMutex i (some t) k = some u)
    · intro u hu k hk
      have hold := h.file u k hk
      rw [Function.update_of_ne]
      · exact hold
      · rintro rfl
        rw [hfree] at hold
        cases hold
    · intro k hk
      obtain rfl : i = k := Option.some.inj hk
      exact Function.update_self ..
  mutex := by
    change ∀ u, (Function.update s.pc t _ u).unlinks = true → s.mutex = some u
    apply forall_place (P := fun u x => x.unlinks = true → s.mutex = some u)
    · exact fun u _ => h.mutex u
    · exact fun hu => by cases hu

theorem locks_unlockFile (h : Locks s) {i b : ℕ} (hpc : s.pc t = .unlockFile i b) :
    Locks ({ s with fileMutex := Function.update s.fileMutex i none }.goto t (.check i b)) where
  file := by
    change ∀ u k, (Function.update s.pc t _ u).file = some k →
      Function.update s.fileMutex i none k = some u
    apply forall_place (P := fun u x => ∀ k, x.file = some k →
      Function.update s.fileMutex i none k = some u)
    · intro u hu k hk
      have hold := h.file u k hk
      have hmine := h.file t i (by rw [hpc]; rfl)
      rw [Function.update_of_ne]
      · exact hold
      · rintro rfl
        exact hu (Option.some.inj (hold.symm.trans hmine))
    · exact fun k hk => by cases hk
  mutex := by
    change ∀ u, (Function.update s.pc t _ u).unlinks = true → s.mutex = some u
    apply forall_place (P := fun u x => x.unlinks = true → s.mutex = some u)
    · exact fun u _ => h.mutex u
    · exact fun hu => by cases hu

theorem locks_lock (h : Locks s) {fd : ℕ} (hfree : s.mutex = none) :
    Locks ({ s with mutex := some t }.goto t (.loop fd 0)) where
  file := by
    change ∀ u k, (Function.update s.pc t _ u).file = some k → s.fileMutex k = some u
    apply forall_place (P := fun u x => ∀ k, x.file = some k → s.fileMutex k = some u)
    · exact fun u _ => h.file u
    · exact fun k hk => by cases hk
  mutex := by
    change ∀ u, (Function.update s.pc t _ u).unlinks = true → some t = some u
    apply forall_place (P := fun u x => x.unlinks = true → some t = some u)
    · intro u _ hu
      have hold := h.mutex u hu
      rw [hfree] at hold
      cases hold
    · exact fun _ => rfl

theorem locks_unlock (h : Locks s) {fd : ℕ} (hpc : s.pc t = .unlock fd) :
    Locks ({ s with mutex := none }.goto t .idle) where
  file := by
    change ∀ u k, (Function.update s.pc t _ u).file = some k → s.fileMutex k = some u
    apply forall_place (P := fun u x => ∀ k, x.file = some k → s.fileMutex k = some u)
    · exact fun u _ => h.file u
    · exact fun k hk => by cases hk
  mutex := by
    change ∀ u, (Function.update s.pc t _ u).unlinks = true → none = some u
    apply forall_place (P := fun u x => x.unlinks = true → none = some u)
    · intro u hu hl
      have hmine := h.mutex t (by rw [hpc]; rfl)
      exact absurd (Option.some.inj ((h.mutex u hl).symm.trans hmine)) hu
    · exact fun hu => by cases hu

theorem locks_getLba (h : Locks s) : (s.nextGetLba t (s.pc t)).After Locks := by
  cases hpc : s.pc t with
  | lockFile i b =>
    simp only [Threads.nextGetLba]
    cases hm : s.fileMutex i with
    | none => exact locks_lockFile h hpc hm
    | some u => exact h
  | unlockFile i b => exact locks_unlockFile h hpc
  | test i b =>
    refine locks_goto h rfl rfl rfl (fun k hk => ?_) (fun hu => ?_) <;> rw [hpc]
    · split_ifs at hk <;> exact hk
    · split_ifs at hu <;> cases hu
  | check i b =>
    refine locks_goto h rfl rfl rfl (fun k hk => ?_) (fun hu => ?_)
    · split_ifs at hk <;> cases hk
    · split_ifs at hu <;> cases hu
  | casRp i b old =>
    simp only [Threads.nextGetLba]
    split_ifs
    · exact locks_goto h rfl rfl rfl (fun k hk => by rw [hpc]; exact hk) (fun hu => by cases hu)
    · exact locks_goto h rfl rfl rfl (fun k hk => by rw [hpc]; exact hk) (fun hu => by cases hu)
  | assert i b =>
    simp only [Threads.nextGetLba]
    split_ifs
    · trivial
    · exact locks_goto h rfl rfl rfl (fun k hk => by cases hk) (fun hu => by cases hu)
  | loadRp | loadCell | setBlock | loadNBlock | setNBlock =>
    exact locks_goto h rfl rfl rfl (fun k hk => by rw [hpc]; exact hk) (fun hu => by cases hu)
  | _ => exact h

theorem locks_unlink (h : Locks s) : (s.nextUnlink t (s.pc t)).After Locks := by
  cases hpc : s.pc t with
  | lock fd =>
    simp only [Threads.nextUnlink]
    cases hm : s.mutex with
    | none => exact locks_lock h hm
    | some u => exact h
  | unlock fd => exact locks_unlock h hpc
  | loop fd j =>
    refine locks_goto h rfl rfl rfl (fun k hk => ?_) (fun _ => by rw [hpc]; rfl)
    split_ifs at hk <;> cases hk
  | casWp fd j old =>
    simp only [Threads.nextUnlink]
    split_ifs
    · exact locks_goto h rfl rfl rfl (fun k hk => by cases hk) (fun _ => by rw [hpc]; rfl)
    · exact locks_goto h rfl rfl rfl (fun k hk => by cases hk) (fun _ => by rw [hpc]; rfl)
  | loadBlock fd j old p =>
    simp only [Threads.nextUnlink]
    split_ifs
    · exact locks_goto h rfl rfl rfl (fun k hk => by cases hk) (fun _ => by rw [hpc]; rfl)
    · trivial
  | loadWp | setCell | clear | setName | zeroNBlock | setRefCount | setFlags =>
    exact locks_goto h rfl rfl rfl (fun k hk => by cases hk) (fun _ => by rw [hpc]; rfl)
  | _ => exact h

/-! ### The ring -/

/-- A step that makes no access to the ring. -/
theorem numbers_goto (h : Numbers s) (hpc : s'.pc = Function.update s.pc t pc)
    (htickets : s'.tickets = s.tickets) (hfree : s'.fs.sb.free = s.fs.sb.free)
    (hw : pc.writes = (s.pc t).writes) (hr : pc.reads = (s.pc t).reads) (hslot : pc.Slot N) :
    Numbers s' where
  shared := by
    rw [hpc, htickets, hfree, proj_update_eq hw, proj_update_eq hr]
    exact h.shared
  slot := by
    rw [hpc]
    exact forall_place (P := fun _ x => x.Slot N) (fun u _ => h.slot u) hslot

theorem numbers_take (h : Numbers s) {i b old : ℕ} (hpc : s.pc t = .casRp i b old)
    (hold : s.fs.sb.free.rp = old) (hempty : s.fs.sb.free.rp ≠ s.fs.sb.free.wp) :
    Numbers ({ s.setFree s.fs.sb.free.pop with tickets := s.tickets.take }.goto t
      (.loadCell i b old s.tickets.reads)) where
  shared := by
    change s.tickets.take.Shared s.fs.sb.free.pop (fun u => (Function.update s.pc t _ u).writes)
      fun u => (Function.update s.pc t _ u).reads
    rw [proj_update ThreadPc.reads, proj_update_eq (f := ThreadPc.writes) (by rw [hpc]; rfl)]
    exact h.shared.take (by rw [hpc]; rfl) hempty
  slot := forall_place (P := fun _ x => x.Slot N) (fun u _ => h.slot u) (hold ▸ h.shared.fits.rp)

theorem numbers_load (h : Numbers s) {i b old p : ℕ} {v : ℤ} (hpc : s.pc t = .loadCell i b old p)
    (hstored : s.tickets.entry p ≠ none) :
    Numbers ({ s with tickets := s.tickets.load p }.goto t (.setBlock i b p v)) where
  shared := by
    change (s.tickets.load p).Shared s.fs.sb.free (fun u => (Function.update s.pc t _ u).writes)
      fun u => (Function.update s.pc t _ u).reads
    rw [proj_update ThreadPc.reads, proj_update_eq (f := ThreadPc.writes) (by rw [hpc]; rfl)]
    exact h.shared.load (by rw [hpc]; rfl) hstored
  slot := forall_place (P := fun _ x => x.Slot N) (fun u _ => h.slot u) trivial

theorem numbers_reserve (h : Numbers s) {fd j old : ℕ} (hpc : s.pc t = .casWp fd j old)
    (hold : s.fs.sb.free.wp = old) (hfull : (s.fs.sb.free.wp + 1) % N ≠ s.fs.sb.free.rp) :
    Numbers ({ s.setFree s.fs.sb.free.reserve with tickets := s.tickets.reserve }.goto t
      (.loadBlock fd j old s.tickets.writes)) where
  shared := by
    change s.tickets.reserve.Shared s.fs.sb.free.reserve
      (fun u => (Function.update s.pc t _ u).writes) fun u => (Function.update s.pc t _ u).reads
    rw [proj_update ThreadPc.writes, proj_update_eq (f := ThreadPc.reads) (by rw [hpc]; rfl)]
    exact h.shared.reserve (by rw [hpc]; rfl) hfull
  slot := forall_place (P := fun _ x => x.Slot N) (fun u _ => h.slot u) (hold ▸ h.shared.fits.wp)

theorem numbers_store (h : Numbers s) {fd j old p : ℕ} {v : ℤ} (hpc : s.pc t = .setCell fd j old p v)
    (hlap : N ≤ p → s.tickets.loaded (p - N) = true) :
    Numbers ({ s.setFree (s.fs.sb.free.store old v) with tickets := s.tickets.store p v }.goto t
      (.clear fd j)) where
  shared := by
    have hslot : old = p % N := by
      have := h.slot t
      rwa [hpc] at this
    change (s.tickets.store p v).Shared (s.fs.sb.free.store old v)
      (fun u => (Function.update s.pc t _ u).writes) fun u => (Function.update s.pc t _ u).reads
    rw [proj_update ThreadPc.writes, proj_update_eq (f := ThreadPc.reads) (by rw [hpc]; rfl), hslot]
    exact h.shared.store (by rw [hpc]; rfl) hlap v
  slot := forall_place (P := fun _ x => x.Slot N) (fun u _ => h.slot u) trivial

theorem numbers_getLba (h : Numbers s) (hA : (ThreadStep.next t).Admissible s)
    (hC : (ThreadStep.next t).Ordered s) : (s.nextGetLba t (s.pc t)).After Numbers := by
  simp only [ThreadStep.Admissible] at hA
  simp only [ThreadStep.Ordered] at hC
  cases hpc : s.pc t with
  | lockFile i b =>
    simp only [Threads.nextGetLba]
    cases s.fileMutex i with
    | none => exact numbers_goto h rfl rfl rfl (by rw [hpc]; rfl) (by rw [hpc]; rfl) trivial
    | some u => exact h
  | casRp i b old =>
    rw [hpc] at hA
    simp only [Threads.nextGetLba]
    split_ifs with hold
    · exact numbers_take h hpc hold (hA hold)
    · exact numbers_goto h rfl rfl rfl (by rw [hpc]; rfl) (by rw [hpc]; rfl) trivial
  | loadCell i b old p =>
    rw [hpc] at hC
    exact numbers_load h hpc hC
  | test i b =>
    simp only [Threads.nextGetLba]
    split_ifs <;> exact numbers_goto h rfl rfl rfl (by rw [hpc]; rfl) (by rw [hpc]; rfl) trivial
  | check i b =>
    simp only [Threads.nextGetLba]
    split_ifs <;> exact numbers_goto h rfl rfl rfl (by rw [hpc]; rfl) (by rw [hpc]; rfl) trivial
  | assert i b =>
    simp only [Threads.nextGetLba]
    split_ifs
    · trivial
    · exact numbers_goto h rfl rfl rfl (by rw [hpc]; rfl) (by rw [hpc]; rfl) trivial
  | loadRp | setBlock | loadNBlock | setNBlock | unlockFile =>
    exact numbers_goto h rfl rfl rfl (by rw [hpc]; rfl) (by rw [hpc]; rfl) trivial
  | _ => exact h

theorem numbers_unlink (h : Numbers s) (hC : (ThreadStep.next t).Ordered s) :
    (s.nextUnlink t (s.pc t)).After Numbers := by
  simp only [ThreadStep.Ordered] at hC
  cases hpc : s.pc t with
  | lock fd =>
    simp only [Threads.nextUnlink]
    cases s.mutex with
    | none => exact numbers_goto h rfl rfl rfl (by rw [hpc]; rfl) (by rw [hpc]; rfl) trivial
    | some u => exact h
  | loop fd j =>
    simp only [Threads.nextUnlink]
    split_ifs <;> exact numbers_goto h rfl rfl rfl (by rw [hpc]; rfl) (by rw [hpc]; rfl) trivial
  | casWp fd j old =>
    rw [hpc] at hC
    simp only [Threads.nextUnlink]
    split_ifs with hold
    · exact numbers_reserve h hpc hold (hC hold)
    · exact numbers_goto h rfl rfl rfl (by rw [hpc]; rfl) (by rw [hpc]; rfl) trivial
  | loadBlock fd j old p =>
    have hslot := h.slot t
    rw [hpc] at hslot
    simp only [Threads.nextUnlink]
    split_ifs
    · exact numbers_goto h rfl rfl rfl (by rw [hpc]; rfl) (by rw [hpc]; rfl) hslot
    · trivial
  | setCell fd j old p v =>
    rw [hpc] at hC
    exact numbers_store h hpc hC
  | loadWp | clear | setName | zeroNBlock | setRefCount | setFlags | unlock =>
    exact numbers_goto h rfl rfl rfl (by rw [hpc]; rfl) (by rw [hpc]; rfl) trivial
  | _ => exact h

/-! ### The blocks -/

theorem setFile_block {sb : Superblock N} {i : ℕ} {f : File} (hf : f.block = (sb.file i).block) (k : ℕ) :
    ((sb.setFile i f).file k).block = (sb.file k).block := by
  by_cases hk : k = i
  · subst hk
    rw [Superblock.setFile_self, hf]
  · rw [Superblock.setFile_of_ne _ _ hk]

theorem setNBlock_block (sb : Superblock N) (i n k l : ℕ) :
    ((sb.setNBlock i n).file k).block l = (sb.file k).block l :=
  congrFun (setFile_block (f := { sb.file i with nBlock := n }) rfl k) l

theorem clearName_block (sb : Superblock N) (i k l : ℕ) :
    ((sb.clearName i).file k).block l = (sb.file k).block l :=
  congrFun (setFile_block (f := { sb.file i with name := CString.empty }) rfl k) l

theorem setBlock_self (sb : Superblock N) (i b : ℕ) (v : ℤ) :
    ((sb.setBlock i b v).file i).block b = v := by
  rw [Superblock.setBlock, Superblock.setFile_self]
  exact Function.update_self ..

theorem setBlock_of_ne (sb : Superblock N) {i b k l : ℕ} (v : ℤ) (h : ¬ (k = i ∧ l = b)) :
    ((sb.setBlock i b v).file k).block l = (sb.file k).block l := by
  rw [Superblock.setBlock]
  by_cases hk : k = i
  · subst hk
    rw [Superblock.setFile_self]
    exact Function.update_of_ne (fun hl => h ⟨rfl, hl⟩) ..
  · rw [Superblock.setFile_of_ne _ _ hk]

/-- An entry that nobody is to clear once `t` has gone on. -/
theorem not_clear_of_update {k l : ℕ} (hclear : s.pc t ≠ .clear k l)
    (h : ∀ u, Function.update s.pc t pc u ≠ .clear k l) (u : ℕ) : s.pc u ≠ .clear k l := by
  by_cases hut : u = t
  · rw [hut]
    exact hclear
  · exact fun hu => h u ((Function.update_of_ne hut ..).trans hu)

/-- An allocation that has loaded a block once `t` has gone on elsewhere. -/
theorem setBlock_of_update (hhands : pc.hands = none) {u i b p : ℕ} {v : ℤ}
    (hu : Function.update s.pc t pc u = .setBlock i b p v) : s.pc u = .setBlock i b p v := by
  by_cases hut : u = t
  · rw [hut, Function.update_self] at hu
    rw [hu] at hhands
    cases hhands
  · rwa [Function.update_of_ne hut] at hu

/-- A step that moves no block. -/
theorem blocks_goto (h : Blocks s) (hpc : s'.pc = Function.update s.pc t pc)
    (hentry : s'.tickets.entry = s.tickets.entry) (hloaded : s'.tickets.loaded = s.tickets.loaded)
    (hblock : ∀ i b, s'.block i b = s.block i b) (hhanded : s'.handed = s.handed) (hrange : pc.Range)
    (hblank : ∀ i b, pc.blank = some (i, b) → s.block i b = inactiveBlock)
    (hrelease : ∀ fd j old p v, pc = .setCell fd j old p v → v = inactiveBlock ∨ s.block fd j = v)
    (hhands : pc.hands = none) (hclear : ∀ i b, s.pc t ≠ .clear i b) : Blocks s' where
  range := by
    rw [hpc]
    exact forall_place (P := fun _ x => x.Range) (fun u _ => h.range u) hrange
  blank := by
    simp only [hpc, hblock]
    exact forall_place (P := fun _ x => ∀ i b, x.blank = some (i, b) → s.block i b = inactiveBlock)
      (fun u _ => h.blank u) hblank
  release := by
    simp only [hpc, hblock]
    exact forall_place (P := fun _ x => ∀ fd j old p v, x = .setCell fd j old p v →
      v = inactiveBlock ∨ s.block fd j = v) (fun u _ => h.release u) hrelease
  pending := by
    simp only [hpc, hentry, hloaded, hhanded]
    refine forall_place (P := fun _ x => ∀ i b p v, x = .setBlock i b p v →
      s.tickets.entry p = some v ∧ s.tickets.loaded p = true ∧ p ∉ s.handed.map Prod.fst)
      (fun u _ => h.pending u) fun i b p v hx => ?_
    rw [hx] at hhands
    cases hhands
  hands := by
    rw [hpc, proj_update ThreadPc.hands, hhands]
    exact h.hands.update fun _ _ hx => by cases hx
  stored := by
    rw [hentry, hloaded, hhanded]
    exact h.stored
  once := hhanded ▸ h.once
  single := by
    have hhas : ∀ k v, Has s' v k → Has s v k := by
      intro k v hk
      cases k with
      | table i b =>
        obtain ⟨hi, hb, hfree, hv⟩ := hk
        rw [hpc] at hfree
        exact ⟨hi, hb, not_clear_of_update (hclear i b) hfree, (hblock i b).symm.trans hv⟩
      | ring p =>
        change s'.tickets.entry p = some v ∧ s'.tickets.loaded p = false at hk
        rwa [hentry, hloaded] at hk
      | thread u =>
        obtain ⟨i, b, p, hu⟩ := hk
        rw [hpc] at hu
        exact ⟨i, b, p, setBlock_of_update hhands hu⟩
    exact fun k l v hv hk hl => h.single k l v hv (hhas k v hk) (hhas l v hl)

/-- The same, to a place that says nothing about the blocks. -/
theorem blocks_quiet (h : Blocks s) (hpc : s'.pc = Function.update s.pc t pc)
    (hentry : s'.tickets.entry = s.tickets.entry) (hloaded : s'.tickets.loaded = s.tickets.loaded)
    (hblock : ∀ i b, s'.block i b = s.block i b) (hhanded : s'.handed = s.handed) (hrange : pc.Range)
    (hquiet : pc.quiet = true) (hclear : (s.pc t).clears = false) : Blocks s' := by
  refine blocks_goto h hpc hentry hloaded hblock hhanded hrange (fun i b hx => ?_)
    (fun fd j old p v hx => ?_) ?_ (fun i b hx => ?_)
  · cases pc <;> cases hquiet <;> cases hx
  · rw [hx] at hquiet
    cases hquiet
  · cases pc <;> cases hquiet <;> rfl
  · rw [hx] at hclear
    cases hclear

/-- A block moves from the holder `a` to `b`. -/
theorem single_of_move (h : Blocks s) {a b : Holder}
    (hold : ∀ k v, v ≠ inactiveBlock → k ≠ b → Has s' v k → Has s v k ∧ k ≠ a)
    (hnew : ∀ v, v ≠ inactiveBlock → Has s' v b → Has s v a) :
    ∀ k l v, v ≠ inactiveBlock → Has s' v k → Has s' v l → k = l := by
  intro k l v hv hk hl
  by_cases hkb : k = b
  · by_cases hlb : l = b
    · exact hkb.trans hlb.symm
    · obtain ⟨hl, hla⟩ := hold l v hv hlb hl
      exact absurd (h.single l a v hv hl (hnew v hv (hkb ▸ hk))) hla
  · obtain ⟨hk, hka⟩ := hold k v hv hkb hk
    by_cases hlb : l = b
    · exact absurd (h.single k a v hv hk (hnew v hv (hlb ▸ hl))) hka
    · exact h.single k l v hv hk (hold l v hv hlb hl).1

/-- An allocation loads a block from the ring. -/
theorem blocks_load (h : Blocks s) {i b old p : ℕ} {x : ℤ} (hpc : s.pc t = .loadCell i b old p)
    (hx : s.tickets.entry p = some x) (hl : s.tickets.loaded p = false) :
    Blocks ({ s with tickets := s.tickets.load p }.goto t (.setBlock i b p x)) where
  range := by
    have hrange := h.range t
    rw [hpc] at hrange
    exact forall_place (P := fun _ x => x.Range) (fun u _ => h.range u) hrange
  blank := by
    refine forall_place (P := fun _ x => ∀ i b, x.blank = some (i, b) → s.block i b = inactiveBlock)
      (fun u _ => h.blank u) fun k l hk => h.blank t k l ?_
    rw [hpc]
    exact hk
  release := forall_place (P := fun _ x => ∀ fd j old p v, x = .setCell fd j old p v →
    v = inactiveBlock ∨ s.block fd j = v) (fun u _ => h.release u) fun fd j old p v hx => by cases hx
  pending := by
    have hload : ∀ q, s.tickets.loaded q = true → (s.tickets.load p).loaded q = true := by
      intro q hq
      by_cases hqp : q = p
      · rw [hqp, Tickets.loaded_load]
      · rwa [Tickets.loaded_load_of_ne _ hqp]
    refine forall_place (P := fun _ y => ∀ i b q v, y = .setBlock i b q v →
      s.tickets.entry q = some v ∧ (s.tickets.load p).loaded q = true ∧ q ∉ s.handed.map Prod.fst)
      (fun u _ i b q v hu => ?_) fun k l q v hq => ?_
    · obtain ⟨he, hloaded, hnot⟩ := h.pending u i b q v hu
      exact ⟨he, hload q hloaded, hnot⟩
    · injection hq with _ _ hq hv
      subst hq hv
      refine ⟨hx, Tickets.loaded_load .., fun hmem => ?_⟩
      obtain ⟨⟨r, w⟩, hrw, hr⟩ := List.mem_map.mp hmem
      obtain rfl : r = p := hr
      exact absurd (h.stored r w hrw).2 (by rw [hl]; decide)
  hands := by
    change Distinct fun u => (Function.update s.pc t _ u).hands
    rw [proj_update ThreadPc.hands]
    refine h.hands.update fun q u hq _ hu => ?_
    obtain rfl : p = q := Option.some.inj hq
    cases hup : s.pc u <;> rw [hup] at hu <;> cases hu
    exact absurd (h.pending u _ _ _ _ hup).2.1 (by rw [hl]; decide)
  stored q v hmem := by
    obtain ⟨he, hloaded⟩ := h.stored q v hmem
    refine ⟨he, ?_⟩
    by_cases hqp : q = p
    · rw [hqp]
      exact Tickets.loaded_load ..
    · exact (Tickets.loaded_load_of_ne _ hqp).trans hloaded
  once := h.once
  single := by
    apply single_of_move h (a := .ring p) (b := .thread t)
    · intro k v hv hkt hk
      cases k with
      | table k l =>
        obtain ⟨hi, hb, hfree, hv⟩ := hk
        exact ⟨⟨hi, hb, not_clear_of_update (by rw [hpc]; nofun) hfree, hv⟩, nofun⟩
      | ring q =>
        obtain ⟨he, hload⟩ := hk
        have hqp : q ≠ p := by
          rintro rfl
          exact absurd ((Tickets.loaded_load s.tickets q).symm.trans hload) (by decide)
        refine ⟨⟨he, (Tickets.loaded_load_of_ne _ hqp).symm.trans hload⟩, fun hn => hqp ?_⟩
        injection hn
      | thread u =>
        obtain ⟨k, l, q, hu⟩ := hk
        have hut : u ≠ t := fun hut => hkt (by rw [hut])
        exact ⟨⟨k, l, q, (Function.update_of_ne hut ..).symm.trans hu⟩, fun hn => by cases hn⟩
    · rintro v - ⟨k, l, q, hu⟩
      have hu := (Function.update_self t _ s.pc).symm.trans hu
      injection hu with _ _ _ hxv
      exact ⟨hxv ▸ hx, hl⟩

/-- Another thread that is to map an entry of the file would hold the same mutex. -/
theorem Locks.blank_unique (h : Locks s) {u i b : ℕ} (ht : (s.pc t).file = some i)
    (hu : (s.pc u).blank = some (i, b)) : u = t := by
  have hfile : (s.pc u).file = some i := by
    cases hup : s.pc u <;> rw [hup] at hu <;> cases hu <;> rfl
  exact Option.some.inj ((h.file u i hfile).symm.trans (h.file t i ht))

/-- The allocation stores the block in its table. -/
theorem blocks_setBlock (h : Blocks s) (hlocks : Locks s) {i b p : ℕ} {x : ℤ}
    (hpc : s.pc t = .setBlock i b p x) :
    Blocks ({ s.setSb (s.fs.sb.setBlock i b x) with handed := s.handed ++ [(p, x)] }.goto t
      (.loadNBlock i b)) := by
  obtain ⟨hx, hload, hnot⟩ := h.pending t i b p x hpc
  have hinactive : s.block i b = inactiveBlock := h.blank t i b (by rw [hpc]; rfl)
  have hblock : ∀ k l, ¬ (k = i ∧ l = b) →
      ((s.fs.sb.setBlock i b x).file k).block l = s.block k l := fun k l hkl =>
    setBlock_of_ne _ x hkl
  have hrange := h.range t
  rw [hpc] at hrange
  constructor
  · exact forall_place (P := fun _ x => x.Range) (fun u _ => h.range u) trivial
  · change ∀ u k l, (Function.update s.pc t _ u).blank = some (k, l) →
      ((s.fs.sb.setBlock i b x).file k).block l = inactiveBlock
    apply forall_place (P := fun _ y => ∀ k l, y.blank = some (k, l) →
      ((s.fs.sb.setBlock i b x).file k).block l = inactiveBlock)
    · intro u hut k l hu
      rw [hblock k l]
      · exact h.blank u k l hu
      · rintro ⟨rfl, -⟩
        exact hut (hlocks.blank_unique (by rw [hpc]; rfl) hu)
    · exact fun k l hk => by cases hk
  · change ∀ u fd j old q v, Function.update s.pc t _ u = .setCell fd j old q v →
      v = inactiveBlock ∨ ((s.fs.sb.setBlock i b x).file fd).block j = v
    apply forall_place (P := fun _ y => ∀ fd j old q v, y = .setCell fd j old q v →
      v = inactiveBlock ∨ ((s.fs.sb.setBlock i b x).file fd).block j = v)
    · intro u _ fd j old q v hu
      rcases h.release u fd j old q v hu with hv | hv
      · exact .inl hv
      · by_cases hij : fd = i ∧ j = b
        · obtain ⟨rfl, rfl⟩ := hij
          exact .inl (hv.symm.trans hinactive)
        · rw [hblock fd j hij]
          exact .inr hv
    · exact fun fd j old q v hu => by cases hu
  · change ∀ u k l q v, Function.update s.pc t _ u = .setBlock k l q v →
      s.tickets.entry q = some v ∧ s.tickets.loaded q = true ∧
        q ∉ (s.handed ++ [(p, x)]).map Prod.fst
    apply forall_place (P := fun _ y => ∀ k l q v, y = .setBlock k l q v →
      s.tickets.entry q = some v ∧ s.tickets.loaded q = true ∧
        q ∉ (s.handed ++ [(p, x)]).map Prod.fst)
    · intro u hut k l q v hu
      obtain ⟨he, hl, hq⟩ := h.pending u k l q v hu
      refine ⟨he, hl, ?_⟩
      rw [List.map_append, List.mem_append, not_or]
      refine ⟨hq, fun hqp => hut ?_⟩
      obtain rfl : q = p := List.mem_singleton.mp hqp
      exact h.hands u t q (congrArg ThreadPc.hands hu) (congrArg ThreadPc.hands hpc)
    · exact fun k l q v hu => by cases hu
  · change Distinct fun u => (Function.update s.pc t _ u).hands
    rw [proj_update ThreadPc.hands]
    exact h.hands.update fun _ _ hx => by cases hx
  · intro q v hmem
    rcases List.mem_append.mp hmem with hmem | hmem
    · exact h.stored q v hmem
    · obtain ⟨rfl, rfl⟩ := Prod.mk.inj (List.mem_singleton.mp hmem)
      exact ⟨hx, hload⟩
  · change ((s.handed ++ [(p, x)]).map Prod.fst).Nodup
    rw [List.map_append, List.nodup_append]
    refine ⟨h.once, List.nodup_singleton _, fun q hq r hr hqr => hnot ?_⟩
    have hrp : r = p := List.mem_singleton.mp hr
    rw [← hrp, ← hqr]
    exact hq
  · -- the block moves from the thread to the table
    apply single_of_move h (a := .thread t) (b := .table i b)
    · intro k v hv hkt hk
      cases k with
      | table k l =>
        obtain ⟨hi, hb, hfree, hv⟩ := hk
        have hkl : ¬ (k = i ∧ l = b) := fun hkl => hkt (by rw [hkl.1, hkl.2])
        exact ⟨⟨hi, hb, not_clear_of_update (by rw [hpc]; nofun) hfree, (hblock k l hkl).symm.trans hv⟩, nofun⟩
      | ring q => exact ⟨hk, fun hn => by cases hn⟩
      | thread u =>
        obtain ⟨k, l, q, hu⟩ := hk
        by_cases hut : u = t
        · subst hut
          have hu := (Function.update_self u _ s.pc).symm.trans hu
          cases hu
        · refine ⟨⟨k, l, q, (Function.update_of_ne hut ..).symm.trans hu⟩, fun hn => hut ?_⟩
          injection hn
    · rintro v - ⟨-, -, -, hv⟩
      have hxv : x = v := (setBlock_self s.fs.sb i b x).symm.trans hv
      exact ⟨i, b, p, hxv ▸ hpc⟩

/-- An unlink stores a block in the ring. -/
theorem blocks_store (h : Blocks s) (hlocks : Locks s) {fd j old p : ℕ} {x : ℤ}
    (hpc : s.pc t = .setCell fd j old p x) (hnone : s.tickets.entry p = none) :
    Blocks ({ s.setFree (s.fs.sb.free.store old x) with tickets := s.tickets.store p x }.goto t
      (.clear fd j)) := by
  have hrange := h.range t
  rw [hpc] at hrange
  have hentry : ∀ q v, s.tickets.entry q = some v → (s.tickets.store p x).entry q = some v := by
    intro q v hq
    have hqp : q ≠ p := by
      rintro rfl
      rw [hnone] at hq
      cases hq
    rwa [Tickets.entry_store_of_ne _ x hqp]
  constructor
  · exact forall_place (P := fun _ x => x.Range) (fun u _ => h.range u) hrange.1
  · exact forall_place (P := fun _ x => ∀ i b, x.blank = some (i, b) → s.block i b = inactiveBlock)
      (fun u _ => h.blank u) fun i b hx => by cases hx
  · exact forall_place (P := fun _ x => ∀ fd j old p v, x = .setCell fd j old p v →
      v = inactiveBlock ∨ s.block fd j = v) (fun u _ => h.release u) fun fd j old p v hx => by cases hx
  · refine forall_place (P := fun _ y => ∀ i b q v, y = .setBlock i b q v →
      (s.tickets.store p x).entry q = some v ∧ s.tickets.loaded q = true ∧
        q ∉ s.handed.map Prod.fst) (fun u _ i b q v hu => ?_) fun i b q v hu => by cases hu
    obtain ⟨he, hrest⟩ := h.pending u i b q v hu
    exact ⟨hentry q v he, hrest⟩
  · change Distinct fun u => (Function.update s.pc t _ u).hands
    rw [proj_update ThreadPc.hands]
    exact h.hands.update fun _ _ hx => by cases hx
  · intro q v hmem
    obtain ⟨he, hl⟩ := h.stored q v hmem
    exact ⟨hentry q v he, hl⟩
  · exact h.once
  · -- the block moves from the table to the ring, before its entry is cleared
    apply single_of_move h (a := .table fd j) (b := .ring p)
    · intro k v hv hkt hk
      cases k with
      | table k l =>
        obtain ⟨hi, hb, hfree, hv⟩ := hk
        refine ⟨⟨hi, hb, not_clear_of_update (by rw [hpc]; nofun) hfree, hv⟩, fun hn => ?_⟩
        injection hn with hk hl
        subst hk hl
        exact hfree t (Function.update_self ..)
      | ring q =>
        obtain ⟨he, hload⟩ := hk
        have hqp : q ≠ p := fun hqp => hkt (by rw [hqp])
        exact ⟨⟨(Tickets.entry_store_of_ne _ x hqp).symm.trans he, hload⟩, fun hn => by cases hn⟩
      | thread u =>
        obtain ⟨k, l, q, hu⟩ := hk
        exact ⟨⟨k, l, q, setBlock_of_update rfl hu⟩, nofun⟩
    · rintro v hv ⟨he, -⟩
      have hxv : x = v := Option.some.inj ((Tickets.entry_store s.tickets p x).symm.trans he)
      refine ⟨hrange.1, hrange.2, fun u hu => ?_, ?_⟩
      · -- only one thread is in an unlink
        have hmine := hlocks.mutex t (by rw [hpc]; rfl)
        have hother := hlocks.mutex u (by rw [hu]; rfl)
        obtain rfl : t = u := Option.some.inj (hmine.symm.trans hother)
        rw [hpc] at hu
        cases hu
      · exact (h.release t fd j old p v (hxv ▸ hpc)).resolve_left hv

/-- The entry whose block is in the ring is cleared. -/
theorem blocks_clear (h : Blocks s) (hlocks : Locks s) {fd j : ℕ} (hpc : s.pc t = .clear fd j) :
    Blocks ((s.setSb (s.fs.sb.setBlock fd j inactiveBlock)).goto t (.loop fd (j + 1))) := by
  have hrange := h.range t
  rw [hpc] at hrange
  have hblock : ∀ k l, ¬ (k = fd ∧ l = j) →
      ((s.fs.sb.setBlock fd j inactiveBlock).file k).block l = s.block k l := fun k l hkl =>
    setBlock_of_ne _ _ hkl
  constructor
  · exact forall_place (P := fun _ x => x.Range) (fun u _ => h.range u) hrange
  · refine forall_place (P := fun _ x => ∀ i b, x.blank = some (i, b) →
      ((s.fs.sb.setBlock fd j inactiveBlock).file i).block b = inactiveBlock)
      (fun u _ i b hu => ?_) fun i b hx => by cases hx
    by_cases hib : i = fd ∧ b = j
    · obtain ⟨rfl, rfl⟩ := hib
      exact setBlock_self ..
    · rw [hblock i b hib]
      exact h.blank u i b hu
  · refine forall_place (P := fun _ x => ∀ fd' j' old p v, x = .setCell fd' j' old p v →
      v = inactiveBlock ∨ ((s.fs.sb.setBlock fd j inactiveBlock).file fd').block j' = v)
      (fun u hut fd' j' old p v hu => ?_) fun fd' j' old p v hx => by cases hx
    have hmine := hlocks.mutex t (by rw [hpc]; rfl)
    have hother := hlocks.mutex u (congrArg ThreadPc.unlinks hu)
    exact absurd (Option.some.inj (hother.symm.trans hmine)) hut
  · exact forall_place (P := fun _ x => ∀ i b p v, x = .setBlock i b p v →
      s.tickets.entry p = some v ∧ s.tickets.loaded p = true ∧ p ∉ s.handed.map Prod.fst)
      (fun u _ => h.pending u) fun i b p v hx => by cases hx
  · change Distinct fun u => (Function.update s.pc t _ u).hands
    rw [proj_update ThreadPc.hands]
    exact h.hands.update fun _ _ hx => by cases hx
  · exact h.stored
  · exact h.once
  · have hhas : ∀ k v, v ≠ inactiveBlock →
        Has ((s.setSb (s.fs.sb.setBlock fd j inactiveBlock)).goto t (.loop fd (j + 1))) v k →
        Has s v k := by
      intro k v hv hk
      cases k with
      | table k l =>
        obtain ⟨hi, hb, hfree, hkv⟩ := hk
        have hkl : ¬ (k = fd ∧ l = j) := by
          rintro ⟨rfl, rfl⟩
          exact hv (hkv.symm.trans (setBlock_self s.fs.sb k l inactiveBlock))
        refine ⟨hi, hb, not_clear_of_update (fun hu => ?_) hfree, (hblock k l hkl).symm.trans hkv⟩
        rw [hpc] at hu
        injection hu with hk hl
        exact hkl ⟨hk.symm, hl.symm⟩
      | ring q => exact hk
      | thread u =>
        obtain ⟨k, l, q, hu⟩ := hk
        exact ⟨k, l, q, setBlock_of_update rfl hu⟩
    exact fun k l v hv hk hl => h.single k l v hv (hhas k v hv hk) (hhas l v hv hl)

theorem blocks_getLba (h : Blocks s) (hlocks : Locks s) (hnumbers : Numbers s)
    (hC : (ThreadStep.next t).Ordered s) : (s.nextGetLba t (s.pc t)).After Blocks := by
  have hrange := h.range t
  have hslot := hnumbers.slot t
  simp only [ThreadStep.Ordered] at hC
  cases hpc : s.pc t with
  | lockFile i b =>
    rw [hpc] at hrange
    simp only [Threads.nextGetLba]
    cases s.fileMutex i with
    | none => exact blocks_quiet h rfl rfl rfl (fun _ _ => rfl) rfl hrange rfl (by rw [hpc]; rfl)
    | some u => exact h
  | test i b =>
    rw [hpc] at hrange
    simp only [Threads.nextGetLba]
    split_ifs with hb
    · refine blocks_goto h rfl rfl rfl (fun _ _ => rfl) rfl hrange (fun k l hk => ?_)
        (fun fd j old p v hx => by cases hx) rfl (fun k l hk => by rw [hpc] at hk; cases hk)
      obtain ⟨rfl, rfl⟩ := Prod.mk.inj (Option.some.inj hk)
      exact hb
    · exact blocks_quiet h rfl rfl rfl (fun _ _ => rfl) rfl trivial rfl (by rw [hpc]; rfl)
  | loadRp i b =>
    rw [hpc] at hrange
    exact blocks_goto h rfl rfl rfl (fun _ _ => rfl) rfl hrange
      (fun k l hk => h.blank t k l (by rw [hpc]; exact hk))
      (fun fd j old p v hx => by cases hx) rfl (fun k l hk => by rw [hpc] at hk; cases hk)
  | casRp i b old =>
    rw [hpc] at hrange
    simp only [Threads.nextGetLba]
    split_ifs <;>
      exact blocks_goto h rfl rfl rfl (fun _ _ => rfl) rfl hrange
        (fun k l hk => h.blank t k l (by rw [hpc]; exact hk))
        (fun fd j old p v hx => by cases hx) rfl (fun k l hk => by rw [hpc] at hk; cases hk)
  | loadCell i b old p =>
    rw [hpc] at hC hslot
    have hread : (s.pc t).reads = some p := by rw [hpc]; rfl
    obtain ⟨x, hx⟩ := Option.ne_none_iff_exists'.mp hC
    have hcell : s.fs.sb.free.cell old = x := hslot ▸ hnumbers.shared.cell hread hx
    change Blocks ({ s with tickets := s.tickets.load p }.goto t (.setBlock i b p (s.fs.sb.free.cell old)))
    rw [hcell]
    exact blocks_load h hpc hx (hnumbers.shared.reader hread).2
  | setBlock i b p v => exact blocks_setBlock h hlocks hpc
  | setNBlock i b n =>
    exact blocks_quiet h rfl rfl rfl (setNBlock_block s.fs.sb i _) rfl trivial rfl (by rw [hpc]; rfl)
  | check i b =>
    simp only [Threads.nextGetLba]
    split_ifs <;> exact blocks_quiet h rfl rfl rfl (fun _ _ => rfl) rfl trivial rfl (by rw [hpc]; rfl)
  | assert i b =>
    simp only [Threads.nextGetLba]
    split_ifs
    · trivial
    · exact blocks_quiet h rfl rfl rfl (fun _ _ => rfl) rfl trivial rfl (by rw [hpc]; rfl)
  | loadNBlock | unlockFile =>
    exact blocks_quiet h rfl rfl rfl (fun _ _ => rfl) rfl trivial rfl (by rw [hpc]; rfl)
  | _ => exact h

theorem blocks_unlink (h : Blocks s) (hlocks : Locks s) (hnumbers : Numbers s) :
    (s.nextUnlink t (s.pc t)).After Blocks := by
  have hrange := h.range t
  cases hpc : s.pc t with
  | lock fd =>
    rw [hpc] at hrange
    simp only [Threads.nextUnlink]
    cases s.mutex with
    | none => exact blocks_quiet h rfl rfl rfl (fun _ _ => rfl) rfl hrange rfl (by rw [hpc]; rfl)
    | some u => exact h
  | loop fd j =>
    rw [hpc] at hrange
    simp only [Threads.nextUnlink]
    split_ifs
    · exact blocks_quiet h rfl rfl rfl (fun _ _ => rfl) rfl hrange rfl (by rw [hpc]; rfl)
    · exact blocks_quiet h rfl rfl rfl (fun _ _ => rfl) rfl trivial rfl (by rw [hpc]; rfl)
  | loadWp fd j =>
    rw [hpc] at hrange
    exact blocks_quiet h rfl rfl rfl (fun _ _ => rfl) rfl hrange rfl (by rw [hpc]; rfl)
  | casWp fd j old =>
    rw [hpc] at hrange
    simp only [Threads.nextUnlink]
    split_ifs <;> exact blocks_quiet h rfl rfl rfl (fun _ _ => rfl) rfl hrange rfl (by rw [hpc]; rfl)
  | loadBlock fd j old p =>
    rw [hpc] at hrange
    simp only [Threads.nextUnlink]
    split_ifs with hj
    · refine blocks_goto h rfl rfl rfl (fun _ _ => rfl) rfl ⟨hrange, hj⟩ (fun k l hk => by cases hk)
        (fun fd' j' old' p' v hx => ?_) rfl (fun k l hk => by rw [hpc] at hk; cases hk)
      injection hx with hfd hj' _ _ hv
      subst hfd hj' hv
      exact .inr rfl
    · trivial
  | setCell fd j old p v =>
    exact blocks_store h hlocks hpc (hnumbers.shared.writer (by rw [hpc]; rfl)).2
  | clear fd j => exact blocks_clear h hlocks hpc
  | setName fd =>
    exact blocks_quiet h rfl rfl rfl (clearName_block s.fs.sb fd) rfl trivial rfl (by rw [hpc]; rfl)
  | zeroNBlock fd =>
    exact blocks_quiet h rfl rfl rfl (setNBlock_block s.fs.sb fd 0) rfl trivial rfl (by rw [hpc]; rfl)
  | setRefCount | setFlags | unlock =>
    exact blocks_quiet h rfl rfl rfl (fun _ _ => rfl) rfl trivial rfl (by rw [hpc]; rfl)
  | _ => exact h

/-- An unlink faults only outside its block table. -/
theorem next_defined (hC : (ThreadStep.next t).Ordered s) :
    ((ThreadStep.next t).step s).Safe fun _ => True := by
  simp only [ThreadStep.Ordered] at hC
  simp only [ThreadStep.step]
  cases hpc : s.pc t with
  | lockFile i b =>
    simp only [ThreadPc.inUnlink, Threads.nextGetLba]
    cases s.fileMutex i <;> trivial
  | lock fd =>
    simp only [ThreadPc.inUnlink, Threads.nextUnlink]
    cases s.mutex <;> trivial
  | loadBlock fd j old p =>
    rw [hpc] at hC
    simp only [ThreadPc.inUnlink, Threads.nextUnlink, if_true, if_pos hC]
    trivial
  | casRp i b old =>
    simp only [ThreadPc.inUnlink, Threads.nextGetLba]
    split_ifs <;> trivial
  | casWp fd j old =>
    simp only [ThreadPc.inUnlink, Threads.nextUnlink]
    split_ifs <;> trivial
  | assert i b =>
    simp only [ThreadPc.inUnlink, Threads.nextGetLba]
    split_ifs <;> trivial
  | _ => trivial

end Steps

theorem threadInv_next {s : Threads N} {t : ℕ} (h : ThreadInv s)
    (hA : (ThreadStep.next t).Admissible s) (hC : (ThreadStep.next t).Ordered s) :
    ((ThreadStep.next t).step s).Safe ThreadInv := by
  have hlocks : ((ThreadStep.next t).step s).After Locks := by
    simp only [ThreadStep.step]
    split_ifs
    · exact locks_unlink h.locks
    · exact locks_getLba h.locks
  have hnumbers : ((ThreadStep.next t).step s).After Numbers := by
    simp only [ThreadStep.step]
    split_ifs
    · exact numbers_unlink h.numbers hC
    · exact numbers_getLba h.numbers hA hC
  have hblocks : ((ThreadStep.next t).step s).After Blocks := by
    simp only [ThreadStep.step]
    split_ifs
    · exact blocks_unlink h.blocks h.locks h.numbers
    · exact blocks_getLba h.blocks h.locks h.numbers hC
  exact ((((next_defined hC).and_after hlocks).and_after hnumbers).and_after hblocks).mono
    fun _ hs => ⟨hs.1.1.2, hs.1.2, hs.2⟩

theorem threadInv_step (o : ThreadStep) (s : Threads N) (h : ThreadInv s) (hA : o.Admissible s)
    (hC : o.Ordered s) : (o.step s).Safe ThreadInv := by
  cases o with
  | getLba t i b =>
    obtain ⟨hidle, hrange⟩ := hA
    refine ⟨?_, ?_, ?_⟩
    · exact locks_goto h.locks rfl rfl rfl (fun k hk => by cases hk) (fun hu => by cases hu)
    · exact numbers_goto h.numbers rfl rfl rfl (by rw [hidle]; rfl) (by rw [hidle]; rfl) trivial
    · exact blocks_quiet h.blocks rfl rfl rfl (fun _ _ => rfl) rfl hrange rfl (by rw [hidle]; rfl)
  | unlink t fd =>
    obtain ⟨hidle, hrange⟩ := hA
    refine ⟨?_, ?_, ?_⟩
    · exact locks_goto h.locks rfl rfl rfl (fun k hk => by cases hk) (fun hu => by cases hu)
    · exact numbers_goto h.numbers rfl rfl rfl (by rw [hidle]; rfl) (by rw [hidle]; rfl) trivial
    · exact blocks_quiet h.blocks rfl rfl rfl (fun _ _ => rfl) rfl hrange rfl (by rw [hidle]; rfl)
  | next t => exact threadInv_next h hA hC

/-! ### Runs -/

/-- The blocks of the ring and the tables are different ones. -/
theorem conserved_disjoint {sb : Superblock N} (h : Conserved sb) :
    sb.free.entries.Nodup ∧ (mappedBlocks sb).Nodup ∧
      ∀ v, v ∈ sb.free.entries → v ∉ mappedBlocks sb := by
  have hnodup : (sb.free.entries + mappedBlocks sb).Nodup := h ▸ nodup_allBlocks
  obtain ⟨h1, h2, h3⟩ := Multiset.nodup_add.mp hnodup
  exact ⟨h1, h2, fun v hv => Multiset.disjoint_left.mp h3 hv⟩

/-- A number of the ring at rest is an entry of the ring. -/
theorem has_ring {fs : Fs N} {v : ℤ} {p : ℕ} (h : Has (.begin_ fs) v (.ring p)) :
    ∃ k, k < fs.sb.free.size ∧ p = fs.sb.free.rp + k ∧
      fs.sb.free.cell ((fs.sb.free.rp + k) % N) = v := by
  obtain ⟨he, hl⟩ := h
  have he : (Tickets.ofRing fs.sb.free).entry p = some v := he
  have hlt : p < fs.sb.free.rp + fs.sb.free.size := by
    rw [← Tickets.ofRing_entry, he]
    exact Option.some_ne_none v
  have hle : ¬ p < fs.sb.free.rp := of_decide_eq_false hl
  refine ⟨p - fs.sb.free.rp, by omega, by omega, ?_⟩
  rw [Nat.add_sub_cancel' (Nat.le_of_not_lt hle)]
  change (if p < fs.sb.free.rp + fs.sb.free.size then some (fs.sb.free.cell (p % N)) else none) =
    some v at he
  rw [if_pos hlt] at he
  exact Option.some.inj he

theorem has_table {fs : Fs N} {v : ℤ} {i b : ℕ} (hv : v ≠ inactiveBlock)
    (h : Has (.begin_ fs) v (.table i b)) : v ∈ mappedBlocks fs.sb := by
  obtain ⟨hi, hb, -, hblock⟩ := h
  have hblock : (fs.sb.file i).block b = v := hblock
  have hmem := mem_fileBlocks hb (hblock.symm ▸ hv)
  rw [hblock] at hmem
  exact Multiset.mem_of_le (fileBlocks_le_mapped fs.sb hi) hmem

/-- In a partition each block has one holder. -/
theorem begin_single {fs : Fs N} (h : Conserved fs.sb) : ∀ k l v, v ≠ inactiveBlock →
    Has (.begin_ fs) v k → Has (.begin_ fs) v l → k = l := by
  obtain ⟨hring, hmapped, hdisjoint⟩ := conserved_disjoint h
  have hmem : ∀ p v, Has (.begin_ fs) v (.ring p) → v ∈ fs.sb.free.entries := by
    intro p v hp
    obtain ⟨k, hk, -, hv⟩ := has_ring hp
    exact Multiset.mem_map.mpr ⟨k, Multiset.mem_range.mpr hk, hv⟩
  intro k l v hv hk hl
  cases k with
  | thread t => obtain ⟨_, _, _, ht⟩ := hk; cases ht
  | ring p =>
    cases l with
    | thread t => obtain ⟨_, _, _, ht⟩ := hl; cases ht
    | table i b => exact absurd (has_table hv hl) (hdisjoint v (hmem p v hk))
    | ring q =>
      obtain ⟨m, hm, rfl, hmv⟩ := has_ring hk
      obtain ⟨n, hn, rfl, hnv⟩ := has_ring hl
      have hmn := Multiset.inj_on_of_nodup_map hring m (Multiset.mem_range.mpr hm) n
        (Multiset.mem_range.mpr hn) (hmv.trans hnv.symm)
      rw [hmn]
  | table i b =>
    cases l with
    | thread t => obtain ⟨_, _, _, ht⟩ := hl; cases ht
    | ring q => exact absurd (has_table hv hk) (hdisjoint v (hmem q v hl))
    | table k l =>
      obtain ⟨hi, hb, -, hib⟩ := hk
      obtain ⟨hk, hl, -, hkl⟩ := hl
      have hne : (fs.sb.file i).block b ≠ inactiveBlock := by
        rw [show (fs.sb.file i).block b = v from hib]
        exact hv
      obtain ⟨rfl, rfl⟩ := mapped_inj hmapped hi hk hb hl hne (hib.trans hkl.symm)
      rfl

theorem threadInv_begin {fs : Fs N} (h : Conserved fs.sb) : ThreadInv (.begin_ fs) where
  locks := ⟨fun _ _ hf => (by cases hf), fun _ hu => (by cases hu)⟩
  numbers := ⟨Tickets.shared_ofRing fs.sb.free, fun _ => trivial⟩
  blocks := {
    range := fun _ => trivial
    blank := fun _ _ _ hb => (by cases hb)
    release := fun _ _ _ _ _ _ hr => (by cases hr)
    pending := fun _ _ _ _ _ hp => (by cases hp)
    hands := fun _ _ _ hh => (by cases hh)
    stored := fun _ _ hm => absurd hm List.not_mem_nil
    once := List.nodup_nil
    single := begin_single h }

/-- In every ordered run from a partition of the blocks, allocations hand out what was released,
once. -/
theorem handed_out_of_ordered (fs : Fs N) (hfs : Conserved fs.sb) (steps : List ThreadStep)
    (hA : Meets ThreadStep.step ThreadStep.Admissible steps (.begin_ fs))
    (hC : Meets ThreadStep.step ThreadStep.Ordered steps (.begin_ fs)) :
    Always ThreadStep.step HandedOut steps (.begin_ fs) :=
  always_of_meets (fun _ h => h.blocks.handedOut) (fun o s h hs => threadInv_step o s h hs.1 hs.2)
    (threadInv_begin hfs) (hA.and hC)

instance (o : ThreadStep) (s : Threads N) : Decidable (o.Admissible s) :=
  match o with
  | .getLba _ _ _ => instDecidableAnd
  | .unlink _ _ => instDecidableAnd
  | .next t => by
    dsimp only [ThreadStep.Admissible]
    split <;> infer_instance

instance (o : ThreadStep) (s : Threads N) : Decidable (o.Ordered s) :=
  match o with
  | .next t => by
    dsimp only [ThreadStep.Ordered]
    split <;> infer_instance
  | .getLba _ _ _ | .unlink _ _ => isTrue trivial

/-- Two allocations of one file, one after the other, and then the unlink of the file. -/
theorem handed_out_two :
    Always ThreadStep.step HandedOut
      [.getLba 0 0 0, .next 0, .getLba 1 0 1, .next 1, .next 0, .next 0, .next 0, .next 0, .next 0, .next 0,
        .next 0, .next 0, .next 1, .next 1, .next 1, .next 1, .next 1, .next 1, .unlink 2 0, .next 2, .next 2,
        .next 2, .next 2, .next 2, .next 2, .next 2]
      (.begin_ (freshFs numBlocks one_lt_numBlocks)) :=
  handed_out_of_ordered _ (fresh_sound _ _).2 _ (by decide +kernel) (by decide +kernel)

/-! ### An allocation from an empty ring -/

section Packed

variable (N) (hN : 1 < N)

/-- Entry `k` of the block tables, laid end to end, when the files have taken all blocks in their
order. -/
def packedBlock (k : ℕ) : ℤ := if k < N - 1 then k else inactiveBlock

/-- A file system without free blocks. -/
def packedFs : Fs N where
  sb :=
    { (freshFs N hN).sb with
      free := { (freshFs N hN).sb.free with rp := N - 1, rp_lt := by omega }
      file := fun i =>
        { name := nameA
          block := fun j => packedBlock N (i * maxBlocksPerFile + j)
          nBlock := min maxBlocksPerFile (N - 1 - i * maxBlocksPerFile) } }
  states := (freshFs N hN).states

theorem packed_block (i j : ℕ) :
    ((packedFs N hN).sb.file i).block j = packedBlock N (i * maxBlocksPerFile + j) := rfl

theorem packed_not_holed (i : ℕ) : ¬ Holed ((packedFs N hN).sb.file i) := by
  rintro ⟨j, hj, hb⟩
  have hj : j < min maxBlocksPerFile (N - 1 - i * maxBlocksPerFile) := hj
  have hlt : i * maxBlocksPerFile + j < N - 1 := by omega
  rw [packed_block, packedBlock, if_pos hlt, inactiveBlock] at hb
  omega

theorem packed_entries : (packedFs N hN).sb.free.entries = 0 := by
  apply Multiset.card_eq_zero.mp
  rw [Cyclic.card_entries, Cyclic.size_eq_zero]
  rfl

/-- The tables, when they have room, hold the blocks in their order. -/
theorem packed_mapped (hroom : N - 1 ≤ maxFiles * maxBlocksPerFile) :
    mappedBlocks (packedFs N hN).sb = allBlocks N := by
  have hrows : mappedBlocks (packedFs N hN).sb =
      tableSum live (maxFiles * maxBlocksPerFile) (packedBlock N) :=
    tableSum_rows live maxBlocksPerFile (packedBlock N) maxFiles
  have hheld : allBlocks N = heldBlocks ⟨nameA, packedBlock N, 0⟩ (N - 1) := by
    refine Multiset.map_congr rfl fun k hk => ?_
    exact (if_pos (Multiset.mem_range.mp hk)).symm
  have hall : allBlocks N = tableSum live (N - 1) (packedBlock N) := by
    rw [← filter_heldBlocks ⟨nameA, packedBlock N, 0⟩, ← hheld]
    refine (Multiset.filter_eq_self.mpr fun b hb => ?_).symm
    rintro rfl
    exact inactive_notMem_allBlocks hb
  rw [hrows, hall]
  refine (Finset.sum_subset (Finset.range_mono hroom) fun k _ hk => ?_).symm
  rw [packedBlock, if_neg fun hlt => hk (Finset.mem_range.mpr hlt), live_inactive]

theorem packed_conserved (hroom : N - 1 ≤ maxFiles * maxBlocksPerFile) :
    Conserved (packedFs N hN).sb := by
  rw [Conserved, packed_entries, packed_mapped N hN hroom, zero_add]

end Packed

/-- An unlink of file 0 has reserved the only position of the ring and has not yet stored a
block there, when an allocation for file 6 takes it. -/
def overtakeRing : List ThreadStep :=
  [.unlink 0 0, .next 0, .next 0, .next 0, .next 0, .getLba 1 6 0, .next 1, .next 1, .next 1, .next 1,
    .next 1, .next 1]

/-- The allocation hands out block 0, which was left in the cell and is in the table of file 0. -/
theorem overtake_not_handed_out :
    Conserved (packedFs numBlocks one_lt_numBlocks).sb ∧
      (∀ i, ¬ Holed ((packedFs numBlocks one_lt_numBlocks).sb.file i)) ∧
      Meets ThreadStep.step ThreadStep.Admissible overtakeRing
        (.begin_ (packedFs numBlocks one_lt_numBlocks)) ∧
      ¬ Always ThreadStep.step HandedOut overtakeRing
        (.begin_ (packedFs numBlocks one_lt_numBlocks)) := by
  refine ⟨packed_conserved _ _ ?_, packed_not_holed _ _, by decide +kernel, ?_⟩
  · simp [numBlocks, maxFiles, maxBlocksPerFile]
  · intro h
    obtain ⟨s, hs, hhanded, hentry⟩ : ∃ s, run ThreadStep.step overtakeRing
        (.begin_ (packedFs numBlocks one_lt_numBlocks)) = .ok s ∧
          ((numBlocks - 1, 0) ∈ s.handed ∧ s.tickets.entry (numBlocks - 1) = none) := by
      decide +kernel
    have hstored := (h.at_end hs).stored _ _ hhanded
    rw [hentry] at hstored
    cases hstored

end Pthabt.Myfs
