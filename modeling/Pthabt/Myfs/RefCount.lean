import Pthabt.Myfs.Conservation

/-! Reference counts under any interleaving of `myfs_open`, `myfs_close`, `myfs_unlink` and
calls of `read_impl` and `write_impl`. Such a call starts with `myfs_increment_ref`,
whose result it ignores, and ends with `myfs_decrement_ref`; another call can come
between the two halves of either, so each is two steps. The count of a slot is the
number of its calls exactly as long as every call finds the slot open and
fewer than `2 ^ 16` overlap. -/

namespace Pthabt.Myfs

open Lib Run

variable {N : ℕ}

/-- The file system and, for each slot, its calls by how far they are. -/
structure Io (N : ℕ) where
  fs : Fs N
  /-- Calls that saw the slot open and are about to increment. -/
  opening : ℕ → ℕ
  /-- Calls between increment and decrement. -/
  running : ℕ → ℕ
  /-- Calls that decremented from zero and are about to test the flags. -/
  ending : ℕ → ℕ

/-- No call in progress. -/
def Io.idle (s : Fs N) : Io N := ⟨s, fun _ => 0, fun _ => 0, fun _ => 0⟩

inductive IoOp where
  | myfsOpen (filename : CString)
  | myfsClose (fd : ℕ)
  | myfsUnlink (filename : CString)
  | myfsGetLba (i offset : ℕ) (write : Bool)
  | testOpen (i : ℕ)
  | increment (i : ℕ)
  | decrement (i : ℕ)
  | testUnlinked (i : ℕ)

namespace Io

def openStep (filename : CString) (s : Io N) : Outcome (Io N) :=
  match myfsOpen s.fs filename with
  | some (fs, _) => .ok { s with fs := fs }
  | none => .fault

def getLbaStep (i offset : ℕ) (write : Bool) (s : Io N) : Outcome (Io N) :=
  match myfsGetLba s.fs.sb i offset write with
  | some (sb, some _) => .ok { s with fs := { s.fs with sb := sb } }
  | some (sb, none) => .abort { s with fs := { s.fs with sb := sb } }
  | none => .fault

def unlink (s : Io N) (filename : CString) : Io N := { s with fs := myfsUnlink s.fs filename }

/-- The test of `myfs_increment_ref`; a call that fails it goes on uncounted. -/
def testOpen (s : Io N) (i : ℕ) : Io N :=
  if (s.fs.states i).flags = fileOpened
  then { s with opening := Function.update s.opening i (s.opening i + 1) }
  else { s with running := Function.update s.running i (s.running i + 1) }

/-- The addition of `myfs_increment_ref`. -/
def increment (s : Io N) (i : ℕ) : Io N :=
  { s with
    fs := fetchAndAdd s.fs i 1
    opening := Function.update s.opening i (s.opening i - 1)
    running := Function.update s.running i (s.running i + 1) }

/-- The subtraction of `myfs_decrement_ref`. -/
def decrement (s : Io N) (i : ℕ) : Io N :=
  { s with
    fs := fetchAndAdd s.fs i (2 ^ 16 - 1)
    running := Function.update s.running i (s.running i - 1)
    ending :=
      if (s.fs.states i).refCount = 0 then Function.update s.ending i (s.ending i + 1)
      else s.ending }

/-- The test of `myfs_decrement_ref` on the flags, once the old count was zero. -/
def testUnlinked (s : Io N) (i : ℕ) : Io N :=
  { s with
    fs := if (s.fs.states i).flags.unlinked then myfsUnlinkFd s.fs i else s.fs
    ending := Function.update s.ending i (s.ending i - 1) }

end Io

def IoOp.step : IoOp → Io N → Outcome (Io N)
  | .myfsOpen filename => Io.openStep filename
  | .myfsClose fd => fun s => .ok { s with fs := Myfs.myfsClose s.fs fd }
  | .myfsUnlink filename => fun s => .ok (s.unlink filename)
  | .myfsGetLba i offset write => Io.getLbaStep i offset write
  | .testOpen i => fun s => .ok (s.testOpen i)
  | .increment i => fun s => .ok (s.increment i)
  | .decrement i => fun s => .ok (s.decrement i)
  | .testUnlinked i => fun s => .ok (s.testUnlinked i)

/-- The steps of a call come in order, and its accesses are inside the block table. -/
def IoOp.Admissible : IoOp → Io N → Prop
  | .myfsOpen _, _ => True
  | .myfsClose fd, _ => fd < maxFiles
  | .myfsUnlink _, _ => True
  | .myfsGetLba i offset _, s => i < maxFiles ∧ 0 < s.running i ∧ iBlock offset < maxBlocksPerFile
  | .testOpen i, _ => i < maxFiles
  | .increment i, s => i < maxFiles ∧ 0 < s.opening i
  | .decrement i, s => i < maxFiles ∧ 0 < s.running i
  | .testUnlinked i, s => i < maxFiles ∧ 0 < s.ending i

/-! ### The two halves of a call's ends -/

/-- Without another step in between, the two halves are `myfs_increment_ref`. -/
theorem increment_testOpen (s : Io N) (i : ℕ) (h : (s.fs.states i).flags = fileOpened) :
    ((s.testOpen i).increment i).fs = (myfsIncrementRef s.fs i).1 := by
  simp [Io.testOpen, Io.increment, myfsIncrementRef, h]

/-- Without another step in between, the two halves are `myfs_decrement_ref`. -/
theorem testUnlinked_decrement (s : Io N) (i : ℕ) :
    (if (s.fs.states i).refCount = 0 then (s.decrement i).testUnlinked i else s.decrement i).fs =
      myfsDecrementRef s.fs i := by
  by_cases h : (s.fs.states i).refCount = 0
  · simp [Io.testUnlinked, Io.decrement, myfsDecrementRef, h]
  · simp [Io.decrement, myfsDecrementRef, h]

/-! ### Who changes a count -/

theorem tryUnlink_refCount (s : Fs N) (fd i : ℕ) :
    ((_myfsTryUnlink s fd).states i).refCount = (s.states i).refCount := by
  by_cases hi : i = fd
  · subst hi
    rw [tryUnlink_states_self]
    split_ifs with h
    · exact h.symm
    · rfl
  · rw [tryUnlink_states_of_ne s hi]

theorem unlink_refCount (s : Fs N) (filename : CString) {i : ℕ} (hi : i < maxFiles) :
    ((myfsUnlink s filename).states i).refCount = (s.states i).refCount := by
  rw [myfsUnlink_states s filename hi]
  split_ifs with hm h
  · exact h.symm
  · rfl
  · rfl

@[simp] theorem Io.unlink_fs (s : Io N) (filename : CString) :
    (s.unlink filename).fs = myfsUnlink s.fs filename := rfl

@[simp] theorem Io.unlink_running (s : Io N) (filename : CString) :
    (s.unlink filename).running = s.running := rfl

theorem open_refCount {s s' : Fs N} {filename : CString} {k : ℕ}
    (h : OpenResult s filename s' k) (i : ℕ) :
    (s'.states i).refCount = (s.states i).refCount := by
  have hset : ∀ t : Fs N, t.states = s.states →
      ((t.setState k { s.states k with flags := fileOpened }).states i).refCount =
        (s.states i).refCount := by
    intro t ht
    by_cases hi : i = k
    · subst hi; rw [Fs.setState_self]
    · rw [Fs.setState_of_ne _ _ hi, ht]
  rcases h with ⟨-, rfl⟩ | ⟨-, -, -, rfl⟩
  · exact hset _ rfl
  · exact hset _ rfl

theorem close_refCount (s : Fs N) (fd i : ℕ) :
    ((myfsClose s fd).states i).refCount = (s.states i).refCount := by
  by_cases hi : i = fd
  · subst hi; rw [myfsClose, Fs.setState_self]
  · rw [myfsClose, Fs.setState_of_ne _ _ hi]

@[simp] theorem fetchAndAdd_self (s : Fs N) (i n : ℕ) :
    (fetchAndAdd s i n).states i =
      { s.states i with refCount := ((s.states i).refCount + n) % 2 ^ 16 } := by
  simp [fetchAndAdd]

theorem incrementRef_sb (s : Fs N) (i : ℕ) : (myfsIncrementRef s i).1.sb = s.sb := by
  unfold myfsIncrementRef
  split_ifs <;> rfl

/-- The decrement that ends a call releases nothing: a count of zero wraps. -/
theorem decrementRef_sb (s : Fs N) (i : ℕ) : (myfsDecrementRef s i).sb = s.sb := by
  unfold myfsDecrementRef
  dsimp only
  split_ifs with h
  · rw [myfsUnlinkFd, tryUnlink_eq, if_neg]
    · rfl
    · rw [fetchAndAdd_self]
      simp [h.1]
  · rfl

theorem fetchAndAdd_of_ne (s : Fs N) (n : ℕ) {i k : ℕ} (h : k ≠ i) :
    (fetchAndAdd s i n).states k = s.states k := Fs.setState_of_ne _ _ h

theorem open_step_of_result {s : Io N} {filename : CString} {fs : Fs N} {k : ℕ}
    (h : OpenResult s.fs filename fs k) : Io.openStep filename s = .ok { s with fs := fs } := by
  rw [Io.openStep, myfsOpen_eq_some.mpr h]

theorem open_step_safe {s : Io N} {filename : CString} {P : Io N → Prop} :
    (Io.openStep filename s).Safe P ↔
      CanOpen s.fs.sb filename ∧
        ∀ fs k, OpenResult s.fs filename fs k → P { s with fs := fs } := by
  unfold Io.openStep
  cases ho : myfsOpen s.fs filename with
  | none =>
    have hno : ¬ CanOpen s.fs.sb filename := by
      rw [← myfsOpen_isSome]
      rintro ⟨s', i, h⟩
      rw [ho] at h
      cases h
    simp [hno]
  | some r =>
    have hr := myfsOpen_eq_some.mp ho
    have hc : CanOpen s.fs.sb filename := myfsOpen_isSome.mp ⟨r.1, r.2, ho⟩
    simp only [Outcome.safe_ok, hc, true_and]
    constructor
    · intro hP fs k h
      have := myfsOpen_eq_some.mpr h
      rw [ho, Option.some.injEq] at this
      subst this
      exact hP
    · intro h
      exact h r.1 r.2 hr

theorem getLba_step_safe {s : Io N} {i offset : ℕ} {write : Bool} {P : Io N → Prop}
    (h : iBlock offset < maxBlocksPerFile)
    (hP : ∀ sb lba, myfsGetLba s.fs.sb i offset write = some (sb, some lba) →
      P { s with fs := { s.fs with sb := sb } }) :
    (Io.getLbaStep i offset write s).Safe P := by
  unfold Io.getLbaStep
  cases hg : myfsGetLba s.fs.sb i offset write with
  | none => simp [myfsGetLba, h] at hg
  | some r =>
    obtain ⟨sb, lba | lba⟩ := r
    · trivial
    · exact hP sb lba hg

/-! ### Counts -/

/-- The count of every slot is the number of its calls. -/
def Counted (s : Io N) : Prop := ∀ i < maxFiles, (s.fs.states i).refCount = s.running i

/-- An open stays in the directory, a call finds its slot open and is not the `2 ^ 16`-th. -/
def IoOp.Regular : IoOp → Io N → Prop
  | .myfsOpen filename, s => CanOpen s.fs.sb filename
  | .testOpen i, s => (s.fs.states i).flags = fileOpened
  | .increment i, s => s.running i + 1 < 2 ^ 16
  | _, _ => True

/-- The operation runs `__myfs_unlink` on slot `i`. -/
def IoOp.Releases : IoOp → Io N → ℕ → Prop
  | .myfsUnlink filename, s, i => Released s.fs filename i
  | .testUnlinked k, s, i =>
    i = k ∧ (s.fs.states i).flags.unlinked ∧ (s.fs.states i).refCount = 0
  | _, _, _ => False

/-- No slot is released during a call. -/
def IoOp.KeepsRunning (o : IoOp) (s : Io N) : Prop :=
  ∀ i < maxFiles, o.Releases s i → s.running i = 0

theorem Releases.refCount {o : IoOp} {s : Io N} {i : ℕ} (h : o.Releases s i) :
    (s.fs.states i).refCount = 0 := by
  cases o with
  | myfsUnlink filename => exact h.2
  | testUnlinked k => exact h.2.2
  | _ => exact h.elim

/-- A counted slot is not released during a call. -/
theorem Counted.keepsRunning {s : Io N} (h : Counted s) (o : IoOp) : o.KeepsRunning s := by
  intro i hi hr
  rw [← h i hi]
  exact Releases.refCount hr

/-- Invariant of regular runs. -/
def CountInv (s : Io N) : Prop := Counted s ∧ ∀ i < maxFiles, s.running i < 2 ^ 16

theorem testOpen_open {s : Io N} {i : ℕ} (h : (s.fs.states i).flags = fileOpened) :
    s.testOpen i = { s with opening := Function.update s.opening i (s.opening i + 1) } := if_pos h

theorem testOpen_other {s : Io N} {i : ℕ} (h : (s.fs.states i).flags ≠ fileOpened) :
    s.testOpen i = { s with running := Function.update s.running i (s.running i + 1) } := if_neg h

theorem testUnlinked_refCount (s : Io N) (k i : ℕ) :
    ((s.testUnlinked k).fs.states i).refCount = (s.fs.states i).refCount := by
  rw [Io.testUnlinked]
  dsimp only
  split_ifs
  · exact tryUnlink_refCount s.fs k i
  · rfl

/-- Subtracting one modulo `2 ^ 16`. -/
theorem add_pred_mod {n : ℕ} (h0 : 0 < n) (h : n < 2 ^ 16) : (n + (2 ^ 16 - 1)) % 2 ^ 16 = n - 1 := by
  omega

theorem countInv_increment {s : Io N} (h : CountInv s) {i : ℕ} (hi : i < maxFiles)
    (hlt : s.running i + 1 < 2 ^ 16) : CountInv (s.increment i) := by
  constructor
  · intro k hk
    by_cases hki : k = i
    · subst hki
      simp only [Io.increment, fetchAndAdd_self, Function.update_self, h.1 k hk]
      exact Nat.mod_eq_of_lt hlt
    · simp only [Io.increment, fetchAndAdd_of_ne _ _ hki, Function.update_of_ne hki]
      exact h.1 k hk
  · intro k hk
    by_cases hki : k = i
    · subst hki
      simpa only [Io.increment, Function.update_self] using hlt
    · simpa only [Io.increment, Function.update_of_ne hki] using h.2 k hk

theorem countInv_decrement {s : Io N} (h : CountInv s) {i : ℕ} (hi : i < maxFiles)
    (hpos : 0 < s.running i) : CountInv (s.decrement i) := by
  have hlt := h.2 i hi
  constructor
  · intro k hk
    by_cases hki : k = i
    · subst hki
      simp only [Io.decrement, fetchAndAdd_self, Function.update_self, h.1 k hk]
      exact add_pred_mod hpos hlt
    · simp only [Io.decrement, fetchAndAdd_of_ne _ _ hki, Function.update_of_ne hki]
      exact h.1 k hk
  · intro k hk
    by_cases hki : k = i
    · subst hki
      simp only [Io.decrement, Function.update_self]
      omega
    · simpa only [Io.decrement, Function.update_of_ne hki] using h.2 k hk

/-- One step of a regular run keeps the counts. -/
theorem countInv_step (o : IoOp) (s : Io N) (h : CountInv s) (hA : o.Admissible s)
    (hC : o.Regular s) : (o.step s).Safe CountInv := by
  obtain ⟨hc, hr⟩ := h
  cases o with
  | myfsOpen filename =>
    refine open_step_safe.mpr ⟨hC, fun fs k ho => ⟨fun i hi => ?_, hr⟩⟩
    rw [open_refCount ho]
    exact hc i hi
  | myfsClose fd =>
    refine ⟨fun i hi => ?_, hr⟩
    rw [close_refCount]
    exact hc i hi
  | myfsUnlink filename =>
    refine ⟨fun i hi => ?_, hr⟩
    rw [Io.unlink_fs, unlink_refCount _ _ hi]
    exact hc i hi
  | myfsGetLba i offset write => exact getLba_step_safe hA.2.2 fun sb lba _ => ⟨hc, hr⟩
  | testOpen i =>
    rw [IoOp.step, Outcome.safe_ok, testOpen_open hC]
    exact ⟨hc, hr⟩
  | increment i => exact countInv_increment ⟨hc, hr⟩ hA.1 hC
  | decrement i => exact countInv_decrement ⟨hc, hr⟩ hA.1 hA.2
  | testUnlinked i =>
    refine ⟨fun k hk => ?_, hr⟩
    rw [testUnlinked_refCount]
    exact hc k hk

/-- A step that is not regular is undefined or breaks a count. -/
theorem uncounted_step (o : IoOp) (s : Io N) (h : CountInv s) (hA : o.Admissible s)
    (hC : ¬ o.Regular s) : ¬ (o.step s).Safe Counted := by
  cases o with
  | myfsOpen filename => exact fun hs => hC (open_step_safe.mp hs).1
  | testOpen i =>
    intro hs
    rw [IoOp.step, Outcome.safe_ok, testOpen_other hC] at hs
    have hi := hs i hA
    simp only [Function.update_self] at hi
    have := h.1 i hA
    omega
  | increment i =>
    intro hs
    have hi := hs i hA.1
    simp only [Io.increment, fetchAndAdd_self, Function.update_self] at hi
    have hge : 2 ^ 16 ≤ s.running i + 1 := Nat.le_of_not_lt hC
    have := Nat.mod_lt ((s.fs.states i).refCount + 1) (show 0 < 2 ^ 16 by decide)
    omega
  | _ => exact absurd trivial hC

theorem mount_countInv (sb : Superblock N) : CountInv (Io.idle (myfsMount sb)) :=
  ⟨fun _ _ => rfl, fun _ _ => Nat.two_pow_pos 16⟩

/-! ### One file with two descriptors -/

section Examples

theorem oneFile_found (hN : 1 < N) :
    OpenResult (oneFile N hN) nameA (openFound (oneFile N hN) 0) 0 := by
  refine Or.inl ⟨⟨maxFiles_pos, ?_, by simp⟩, rfl⟩
  rw [nameMatches_iff, oneFile_file]
  exact CString.isPrefix_refl _

theorem idle_open (hN : 1 < N) :
    IoOp.step (.myfsOpen nameA) (Io.idle (freshFs N hN)) = .ok (Io.idle (oneFile N hN)) :=
  open_step_of_result (fresh_openResult N hN)

theorem oneFile_flags (hN : 1 < N) : ((oneFile N hN).states 0).flags = fileOpened := by
  simp [oneFile, openNew]

/-- Open a file twice and close one descriptor; write through the other, and unlink meanwhile. -/
def closedRun : List IoOp :=
  [.myfsOpen nameA, .myfsOpen nameA, .myfsClose 0, .testOpen 0, .myfsUnlink nameA]

/-- The file after the first three steps of `closedRun`. -/
def closedFile (hN : 1 < N) : Fs N := myfsClose (openFound (oneFile N hN) 0) 0

theorem closedFile_state (hN : 1 < N) :
    ((closedFile hN).states 0).flags ≠ fileOpened ∧ ((closedFile hN).states 0).refCount = 0 := by
  constructor
  · simp [closedFile, myfsClose, openFound, fileOpened]
  · simpa [closedFile, myfsClose, openFound] using oneFile_refCount N hN 0

theorem closedFile_released (hN : 1 < N) : Released (closedFile hN) nameA 0 := by
  refine ⟨?_, (closedFile_state hN).2⟩
  rw [nameMatches_iff]
  change nameA.IsPrefix ((oneFile N hN).sb.file 0).name
  rw [oneFile_file]
  exact CString.isPrefix_refl _

end Examples

end Pthabt.Myfs
