import Pthabt.Myfs.RefCount

/-! Unlinks that arrive during calls on the slot. `myfs_decrement_ref` tests the count
before its subtraction against zero, but the last call in progress finds one there. So its
decrement carries out no deferred unlink, which stays pending until `myfs_open` of
the name overwrites the flags or another unlink of the name finds the slot without calls. -/

namespace Pthabt.Myfs

open Lib Run

variable {N : ℕ}

/-- No call in progress on slot `i`. -/
def Quiet (s : Io N) (i : ℕ) : Prop := s.opening i = 0 ∧ s.running i = 0 ∧ s.ending i = 0

/-- Slot `i` is marked for release and still holds its file. -/
def Pending (s : Fs N) (i : ℕ) : Prop :=
  (s.states i).flags.unlinked = true ∧ (s.sb.file i).name ≠ CString.empty

/-- No deferred unlink is left over once the calls on its slot have ended. -/
def Settled (s : Io N) : Prop := ∀ i < maxFiles, Quiet s i → ¬ Pending s.fs i

/-- Only calls whose increment succeeds start. -/
def IoOp.Balanced : IoOp → Io N → Prop
  | .testOpen i, s => i < maxFiles ∧ (s.fs.states i).flags = fileOpened
  | o, s => o.Admissible s

/-- An open stays in the directory; the last call on a slot does not end after its unlink. -/
def IoOp.Timely : IoOp → Io N → Prop
  | .myfsOpen filename, s => CanOpen s.fs.sb filename
  | .decrement i, s =>
    s.running i = 1 → s.opening i = 0 → s.ending i = 0 → ¬ Pending s.fs i
  | _, _ => True

/-- Invariant of timely runs. Without a bound on the calls, the count is right modulo `2 ^ 16`. -/
structure DeferInv (s : Io N) : Prop where
  count : ∀ i < maxFiles, (s.fs.states i).refCount = s.running i % 2 ^ 16
  settled : Settled s

theorem DeferInv.quiet_refCount {s : Io N} (h : DeferInv s) {i : ℕ} (hi : i < maxFiles)
    (hq : Quiet s i) : (s.fs.states i).refCount = 0 := by
  rw [h.count i hi, hq.2.1, Nat.zero_mod]

theorem pending_congr {s t : Fs N} {i : ℕ} (hf : (t.states i).flags = (s.states i).flags)
    (hn : (t.sb.file i).name = (s.sb.file i).name) : Pending t i ↔ Pending s i := by
  rw [Pending, Pending, hf, hn]

/-! ### Single steps -/

/-- `myfs_get_lba` changes no name. -/
theorem getLba_name {sb sb' : Superblock N} {i offset : ℕ} {write : Bool} {lba : Option ℕ}
    (h : myfsGetLba sb i offset write = some (sb', lba)) (k : ℕ) :
    (sb'.file k).name = (sb.file k).name := by
  unfold myfsGetLba at h
  split_ifs at h with hb hw
  · simp only [Option.some.injEq, Prod.mk.injEq] at h
    rw [← h.1]
    exact mapBlock_name _ _ _ _
  · simp only [Option.some.injEq, Prod.mk.injEq] at h
    rw [← h.1]

/-- After `myfs_open`, a slot that is pending was pending before. -/
theorem pending_open {s s' : Fs N} {filename : CString} {k : ℕ} (h : OpenResult s filename s' k)
    {i : ℕ} (hp : Pending s' i) : Pending s i := by
  by_cases hi : i = k
  · subst hi
    have hu := hp.1
    rcases h with ⟨-, rfl⟩ | ⟨-, -, -, rfl⟩
    · simp [openFound, fileOpened] at hu
    · simp [openNew, fileOpened] at hu
  · rcases h with ⟨-, rfl⟩ | ⟨-, -, -, rfl⟩
    · have hs : (openFound s k).states i = s.states i := Fs.setState_of_ne _ _ hi
      have he : Pending (openFound s k) i ↔ Pending s i := pending_congr (by rw [hs]) rfl
      exact he.mp hp
    · refine (pending_congr ?_ ?_).mp hp
      · rw [openNew, Fs.setState_of_ne _ _ hi]
      · rw [openNew_file, Function.update_of_ne hi]

theorem pending_close (s : Fs N) (fd i : ℕ) : Pending (myfsClose s fd) i ↔ Pending s i := by
  by_cases hi : i = fd
  · subst hi
    simp [Pending, myfsClose]
  · exact pending_congr (by rw [myfsClose, Fs.setState_of_ne _ _ hi]) rfl

/-- An unlink that finds the slot without calls leaves nothing pending in it. -/
theorem not_pending_tryUnlink {s : Fs N} {i : ℕ} (h : (s.states i).refCount = 0) :
    ¬ Pending (_myfsTryUnlink s i) i := by
  rintro ⟨hu, -⟩
  rw [tryUnlink_states_self, if_pos h] at hu
  cases hu

theorem pending_tryUnlink_of_ne (s : Fs N) {fd i : ℕ} (h : i ≠ fd) :
    Pending (_myfsTryUnlink s fd) i ↔ Pending s i :=
  pending_congr (by rw [tryUnlink_states_of_ne s h])
    (by rw [tryUnlink_file, if_neg (fun hc => h hc.1)])

theorem pending_unlink {s : Fs N} {filename : CString} {i : ℕ} (hi : i < maxFiles)
    (h : (s.states i).refCount = 0) (hp : Pending (myfsUnlink s filename) i) : Pending s i := by
  have hs := myfsUnlink_states s filename hi
  have hf := myfsUnlink_file s filename hi
  by_cases hm : nameMatches s.sb filename i
  · have hu := hp.1
    rw [hs, if_pos hm, if_pos h] at hu
    cases hu
  · rw [if_neg hm] at hs
    rw [if_neg (fun hr => hm hr.1)] at hf
    exact (pending_congr (by rw [hs]) (by rw [hf])).mp hp

/-- The decrement changes only a count, so it carries out no unlink. -/
theorem pending_decrement (s : Io N) (i k : ℕ) : Pending (s.decrement i).fs k ↔ Pending s.fs k := by
  by_cases hk : k = i
  · subst hk
    exact pending_congr (by simp [Io.decrement]) rfl
  · exact pending_congr (by simp [Io.decrement, fetchAndAdd_of_ne _ _ hk]) rfl

theorem pending_increment (s : Io N) (i k : ℕ) : Pending (s.increment i).fs k ↔ Pending s.fs k := by
  by_cases hk : k = i
  · subst hk
    exact pending_congr (by simp [Io.increment]) rfl
  · exact pending_congr (by simp [Io.increment, fetchAndAdd_of_ne _ _ hk]) rfl

theorem decrement_sb (s : Io N) (i : ℕ) : (s.decrement i).fs.sb = s.fs.sb := rfl

theorem decrement_ending (s : Io N) (i : ℕ) : (s.decrement i).ending =
    if (s.fs.states i).refCount = 0 then Function.update s.ending i (s.ending i + 1)
    else s.ending := rfl

/-- The last call on a slot decrements from one. -/
theorem DeferInv.quiet_decrement {s : Io N} (h : DeferInv s) {i : ℕ} (hi : i < maxFiles) :
    s.running i = 1 → s.opening i = 0 → s.ending i = 0 → Quiet (s.decrement i) i := by
  intro hr ho he
  have hc := h.count i hi
  rw [hr, Nat.mod_eq_of_lt (by decide)] at hc
  refine ⟨ho, by simp [Io.decrement, hr], ?_⟩
  simp [Io.decrement, hc, he]

theorem quiet_of_decrement {s : Io N} {i : ℕ} (hpos : 0 < s.running i)
    (hq : Quiet (s.decrement i) i) : s.running i = 1 ∧ s.opening i = 0 ∧ s.ending i = 0 := by
  obtain ⟨ho, hr, he⟩ := hq
  simp only [Io.decrement, Function.update_self] at ho hr he
  refine ⟨by omega, ho, ?_⟩
  split_ifs at he
  · simp at he
  · exact he

/-! ### Runs -/

theorem DeferInv.of_settled {s t : Io N} (h : DeferInv s)
    (hc : ∀ i < maxFiles, (t.fs.states i).refCount = (s.fs.states i).refCount)
    (hr : t.running = s.running) (ht : Settled t) : DeferInv t :=
  ⟨fun i hi => by rw [hc i hi, hr]; exact h.count i hi, ht⟩

theorem deferInv_increment {s : Io N} (h : DeferInv s) {i : ℕ} (hi : i < maxFiles) :
    DeferInv (s.increment i) := by
  constructor
  · intro k hk
    by_cases hki : k = i
    · subst hki
      simp only [Io.increment, fetchAndAdd_self, Function.update_self, h.count k hk]
      rw [Nat.mod_add_mod]
    · simp only [Io.increment, fetchAndAdd_of_ne _ _ hki, Function.update_of_ne hki]
      exact h.count k hk
  · intro k hk hq
    rw [pending_increment]
    by_cases hki : k = i
    · subst hki
      have hr := hq.2.1
      simp [Io.increment] at hr
    · refine h.settled k hk ?_
      simpa [Quiet, Io.increment, Function.update_of_ne hki] using hq

theorem deferInv_decrement {s : Io N} (h : DeferInv s) {i : ℕ} (hi : i < maxFiles)
    (hpos : 0 < s.running i)
    (hC : s.running i = 1 → s.opening i = 0 → s.ending i = 0 → ¬ Pending s.fs i) :
    DeferInv (s.decrement i) := by
  constructor
  · intro k hk
    by_cases hki : k = i
    · subst hki
      simp only [Io.decrement, fetchAndAdd_self, Function.update_self, h.count k hk]
      omega
    · simp only [Io.decrement, fetchAndAdd_of_ne _ _ hki, Function.update_of_ne hki]
      exact h.count k hk
  · intro k hk hq
    rw [pending_decrement]
    by_cases hki : k = i
    · subst hki
      obtain ⟨hr, ho, he⟩ := quiet_of_decrement hpos hq
      exact hC hr ho he
    · refine h.settled k hk ?_
      obtain ⟨ho, hr, he⟩ := hq
      refine ⟨ho, by simpa [Io.decrement, Function.update_of_ne hki] using hr, ?_⟩
      simp only [Io.decrement] at he
      split_ifs at he
      · rwa [Function.update_of_ne hki] at he
      · exact he

theorem deferInv_testUnlinked {s : Io N} (h : DeferInv s) {i : ℕ} (hi : i < maxFiles) :
    DeferInv (s.testUnlinked i) := by
  refine h.of_settled (fun k _ => testUnlinked_refCount s i k) rfl ?_
  intro k hk hq
  have hr : s.running k = 0 := hq.2.1
  by_cases hki : k = i
  · subst hki
    have h0 : (s.fs.states k).refCount = 0 := by rw [h.count k hk, hr, Nat.zero_mod]
    rw [Io.testUnlinked]
    dsimp only
    split_ifs with hu
    · exact not_pending_tryUnlink h0
    · exact fun hp => hu hp.1
  · have hpend : Pending (s.testUnlinked i).fs k ↔ Pending s.fs k := by
      rw [Io.testUnlinked]
      dsimp only
      split_ifs
      · exact pending_tryUnlink_of_ne s.fs hki
      · rfl
    rw [hpend]
    refine h.settled k hk ⟨hq.1, hr, ?_⟩
    have he := hq.2.2
    simpa [Io.testUnlinked, Function.update_of_ne hki] using he

/-- One timely step leaves no unlink over. -/
theorem deferInv_step (o : IoOp) (s : Io N) (h : DeferInv s) (hA : o.Balanced s)
    (hC : o.Timely s) : (o.step s).Safe DeferInv := by
  cases o with
  | myfsOpen filename =>
    refine open_step_safe.mpr ⟨hC, fun fs k ho => ?_⟩
    exact h.of_settled (fun i _ => open_refCount ho i) rfl
      fun i hi hq hp => h.settled i hi hq (pending_open ho hp)
  | myfsClose fd =>
    exact h.of_settled (fun i _ => close_refCount s.fs fd i) rfl
      fun i hi hq hp => h.settled i hi hq ((pending_close s.fs fd i).mp hp)
  | myfsUnlink filename =>
    exact h.of_settled (fun i hi => unlink_refCount s.fs filename hi) rfl
      fun i hi hq hp => h.settled i hi hq (pending_unlink hi (h.quiet_refCount hi hq) hp)
  | myfsGetLba i offset write =>
    refine getLba_step_safe hA.2.2 fun sb lba hg => ?_
    have he : ∀ k, Pending { s.fs with sb := sb } k ↔ Pending s.fs k :=
      fun k => pending_congr rfl (getLba_name hg k)
    exact h.of_settled (fun _ _ => rfl) rfl
      fun k hk hq hp => h.settled k hk hq ((he k).mp hp)
  | testOpen i =>
    rw [IoOp.step, Outcome.safe_ok, testOpen_open hA.2]
    refine h.of_settled (fun _ _ => rfl) rfl fun k hk hq => ?_
    by_cases hki : k = i
    · subst hki
      simp [Quiet] at hq
    · refine h.settled k hk ?_
      simpa [Quiet, Function.update_of_ne hki] using hq
  | increment i => exact deferInv_increment h hA.1
  | decrement i => exact deferInv_decrement h hA.1 hA.2 hC
  | testUnlinked i => exact deferInv_testUnlinked h hA.1

/-- A step that is not timely is undefined or leaves an unlink over. -/
theorem unsettled_step (o : IoOp) (s : Io N) (h : DeferInv s) (hA : o.Balanced s)
    (hC : ¬ o.Timely s) : ¬ (o.step s).Safe Settled := by
  cases o with
  | myfsOpen filename => exact fun hs => hC (open_step_safe.mp hs).1
  | decrement i =>
    intro hs
    apply hC
    intro hr ho he hp
    exact hs i hA.1 (h.quiet_decrement hA.1 hr ho he) ((pending_decrement s i i).mpr hp)
  | _ => exact absurd trivial hC

theorem mount_deferInv (sb : Superblock N) : DeferInv (Io.idle (myfsMount sb)) :=
  ⟨fun _ _ => rfl, fun _ _ _ hp => by cases hp.1⟩

/-! ### One write and an unlink -/

section Examples

variable (hN : 1 < N)

/-- A first write to a new file, between its increment and its decrement. -/
def writing : Io N :=
  { (Io.idle (oneFile N hN)) with
    fs := { fetchAndAdd (oneFile N hN) 0 1 with sb := mapBlock (oneFile N hN).sb 0 0 }
    opening := Function.update (Function.update (fun _ => 0) 0 1) 0 0
    running := Function.update (fun _ => 0) 0 1 }

theorem iBlock_zero : iBlock 0 = 0 := by simp [iBlock]

theorem tab_pos : 0 < maxBlocksPerFile := by simp [maxBlocksPerFile]

theorem writing_getLba :
    Io.getLbaStep 0 0 true (((Io.idle (oneFile N hN)).testOpen 0).increment 0) =
      .ok (writing hN) := by
  obtain ⟨-, -, -, hring⟩ := oneFile_admissible N hN tab_pos
  rw [Nat.zero_mul, Nat.zero_div] at hring
  have hok := mapBlock_mapped (oneFile_sound N hN).1 (oneFile_sound N hN).2 hring
  have hget := myfsGetLba_write (oneFile N hN).sb 0 (iBlock_zero.symm ▸ tab_pos)
  rw [iBlock_zero, if_neg hok] at hget
  have hsb : (((Io.idle (oneFile N hN)).testOpen 0).increment 0).fs.sb = (oneFile N hN).sb := by
    rw [testOpen_open (oneFile_flags hN)]
    rfl
  rw [Io.getLbaStep, hsb, hget, testOpen_open (oneFile_flags hN)]
  rfl

theorem writing_file : (writing hN).fs.sb.file 0 = ⟨nameA, Function.update emptyTable 0 0, 1⟩ :=
  oneBlock_file N hN tab_pos

theorem writing_refCount : ((writing hN).fs.states 0).refCount = 1 := by
  have h0 := oneFile_refCount N hN 0
  simp [writing, fetchAndAdd, h0]

/-- An unlink that arrives during the write is deferred. -/
theorem writing_unlink : Pending (myfsUnlink (writing hN).fs nameA) 0 ∧
    (myfsUnlink (writing hN).fs nameA).sb.file 0 = (writing hN).fs.sb.file 0 := by
  have hr := writing_refCount hN
  have hm : nameMatches (writing hN).fs.sb nameA 0 := by
    rw [nameMatches_iff, writing_file]
    exact CString.isPrefix_refl _
  have hf : (myfsUnlink (writing hN).fs nameA).sb.file 0 = (writing hN).fs.sb.file 0 := by
    rw [myfsUnlink_file _ _ maxFiles_pos, if_neg]
    rintro ⟨-, h0⟩
    omega
  refine ⟨⟨?_, ?_⟩, hf⟩
  · rw [myfsUnlink_states _ _ maxFiles_pos, if_pos hm, if_neg (by omega)]
  · rw [hf, writing_file]
    decide

theorem unlinking_refCount :
    ((((writing hN).unlink nameA).fs).states 0).refCount = 1 := by
  rw [Io.unlink_fs, unlink_refCount _ _ maxFiles_pos, writing_refCount]

theorem unlinking_quiet : Quiet (((writing hN).unlink nameA).decrement 0) 0 := by
  refine ⟨rfl, rfl, ?_⟩
  rw [decrement_ending, unlinking_refCount, if_neg Nat.one_ne_zero]
  rfl

theorem unlinking_file : (((writing hN).unlink nameA).decrement 0).fs.sb.file 0 =
    ⟨nameA, Function.update emptyTable 0 0, 1⟩ := by
  rw [decrement_sb, Io.unlink_fs, (writing_unlink hN).2, writing_file]

/-- Write the first block of a new file, unlink it meanwhile, end the write. -/
def deferredRun : List IoOp :=
  [.myfsOpen nameA, .testOpen 0, .increment 0, .myfsGetLba 0 0 true, .myfsUnlink nameA,
    .decrement 0]

theorem deferred_run :
    run IoOp.step deferredRun (Io.idle (freshFs N hN)) =
      .ok (((writing hN).unlink nameA).decrement 0) := by
  rw [deferredRun, run_cons, idle_open, Outcome.bind_ok, run_cons, IoOp.step, Outcome.bind_ok,
    run_cons, IoOp.step, Outcome.bind_ok, run_cons, IoOp.step, writing_getLba, Outcome.bind_ok,
    run_cons, IoOp.step, Outcome.bind_ok, run_cons, IoOp.step, Outcome.bind_ok, run_nil]

end Examples

end Pthabt.Myfs
