import Pthabt.Hook.FdTable

/-! `MYFS_FILE_OPENED` and the descriptors of a file. `myfs_open` sets the flag and
`myfs_close` toggles it, so the flag of a slot is set exactly while a descriptor of the
slot is open as long as no descriptor is closed beside another one of its slot. -/

namespace Pthabt.Hook

open Lib Run Myfs

variable {N : ℕ} (cfg : Config)

/-- The calls of ULTs that open and close files. -/
inductive FlagCall where
  | openat (filename : Path) (ret : ℤ)
  | close (fd : ℤ)

def FlagCall.step : FlagCall → Process N → Outcome (Process N)
  | .openat filename ret, s => hookOpenat cfg filename ret s
  | .close fd, s => hookClose fd s

/-- The kernel returns an error or a descriptor that is not open. -/
def FlagCall.Admissible : FlagCall → Process N → Prop
  | .openat _ ret, s => 0 ≤ ret → s.kernel ret.toNat = none
  | .close _, _ => True

/-- A descriptor of slot `i` is open. -/
def OpenAt (s : Process N) (fd i : ℕ) : Prop :=
  fd < maxHookfd ∧ s.hookfds fd = i ∧ s.kernel fd ≠ none

/-- The flag of every slot is set exactly when a descriptor of the slot is open. -/
def FlagsTrack (s : Process N) : Prop :=
  ∀ i < maxFiles, (s.fs.states i).flags.opened = true ↔ ∃ fd, OpenAt s fd i

/-- An `openat` of a hooked path succeeds and finds the file or room for it; a descriptor of the
table is closed, and only when it is the last one of its slot. -/
def FlagCall.Single : FlagCall → Process N → Prop
  | .openat filename ret, s =>
    isHookedFilename cfg filename = true →
      0 ≤ ret ∧ (ret < maxHookfd → CanOpen s.fs.sb filename.chars)
  | .close fd, s =>
    InTable fd ∧ ∀ i k : ℕ, s.hookfds fd.toNat = i → OpenAt s k i → k = fd.toNat

/-- Invariant of such runs: the hooked descriptors are open, and their slots exist. -/
structure FlagInv (s : Process N) : Prop where
  track : FlagsTrack s
  hooked : ∀ fd < maxHookfd, 0 ≤ s.hookfds fd →
    s.kernel fd ≠ none ∧ (s.hookfds fd).toNat < maxFiles

variable {cfg}

/-! ### Opening -/

theorem openResult_lt {s s' : Fs N} {filename : CString} {i : ℕ} (h : OpenResult s filename s' i) :
    i < maxFiles := by
  rcases h with ⟨h, -⟩ | ⟨-, h, -, -⟩
  · exact h.1
  · exact h.1

/-- `myfs_open` sets the flag of its slot and leaves the others. -/
theorem openResult_opened {s s' : Fs N} {filename : CString} {i : ℕ}
    (h : OpenResult s filename s' i) (k : ℕ) :
    (s'.states k).flags.opened = if k = i then true else (s.states k).flags.opened := by
  have hset : ∀ t : Fs N, ((t.setState i { s.states i with flags := fileOpened }).states k).flags.opened
      = if k = i then true else (t.states k).flags.opened := by
    intro t
    by_cases hk : k = i
    · subst hk
      rw [Fs.setState_self, if_pos rfl]
      rfl
    · rw [Fs.setState_of_ne _ _ hk, if_neg hk]
  rcases h with ⟨-, rfl⟩ | ⟨-, -, -, rfl⟩
  · exact hset s
  · exact hset { s with sb := s.sb.setFile i { s.sb.file i with name := filename, nBlock := 0 } }

/-- The kernel's new descriptor is not one of a slot. -/
theorem openAt_kernelOpen {s : Process N} (h : FlagInv s) {o : Origin} {ret : ℤ}
    (hret : 0 ≤ ret → s.kernel ret.toNat = none) (fd i : ℕ) :
    OpenAt (s.kernelOpen o ret) fd i ↔ OpenAt s fd i := by
  unfold OpenAt
  rw [kernelOpen_hookfds]
  by_cases hfd : (fd : ℤ) = ret
  · subst hfd
    have hnone := hret (by omega)
    rw [Int.toNat_natCast] at hnone
    have hneg : fd < maxHookfd → s.hookfds fd ≠ i := by
      intro hlt he
      exact (h.hooked fd hlt (by omega)).1 hnone
    constructor
    · rintro ⟨hlt, he, -⟩
      exact absurd he (hneg hlt)
    · rintro ⟨hlt, he, -⟩
      exact absurd he (hneg hlt)
  · rw [kernelOpen_of_ne s o hfd]

theorem FlagInv.kernelOpen {s : Process N} (h : FlagInv s) (o : Origin) {ret : ℤ}
    (hret : 0 ≤ ret → s.kernel ret.toNat = none) : FlagInv (s.kernelOpen o ret) := by
  constructor
  · intro i hi
    simp only [openAt_kernelOpen h hret, kernelOpen_fs]
    exact h.track i hi
  · intro fd hfd h0
    rw [kernelOpen_hookfds] at h0 ⊢
    obtain ⟨hk, hlt⟩ := h.hooked fd hfd h0
    refine ⟨?_, hlt⟩
    rw [kernelOpen_of_ne s o]
    · exact hk
    · rintro rfl
      have hnone := hret (by omega)
      rw [Int.toNat_natCast] at hnone
      exact hk hnone

/-- The slot that `myfs_open` returned gets a descriptor, which had none before. -/
theorem FlagInv.opened {s : Process N} (h : FlagInv s) {filename : Path} {fs : Fs N} {ret i : ℕ}
    (hlt : ret < maxHookfd) (hopen : s.kernel ret ≠ none) (hnew : ¬ 0 ≤ s.hookfds ret)
    (ho : OpenResult s.fs filename.chars fs i) : FlagInv (s.setHook ret i 0 fs) := by
  have hi := openResult_lt ho
  constructor
  · intro k hk
    change (fs.states k).flags.opened = true ↔ _
    rw [openResult_opened ho]
    by_cases hki : k = i
    · subst hki
      rw [if_pos rfl]
      exact iff_of_true rfl ⟨ret, hlt, setHook_hookfds_self .., hopen⟩
    · rw [if_neg hki, h.track k hk]
      refine exists_congr fun fd => ?_
      unfold OpenAt
      by_cases hfd : fd = ret
      · subst hfd
        rw [setHook_hookfds_self]
        constructor
        · rintro ⟨-, he, -⟩
          exact absurd he (by omega)
        · rintro ⟨-, he, -⟩
          exact absurd he (by omega)
      · rw [setHook_hookfds_of_ne _ _ _ _ hfd, setHook_kernel]
  · intro fd hfd h0
    rw [setHook_kernel]
    by_cases he : fd = ret
    · subst he
      rw [setHook_hookfds_self]
      exact ⟨hopen, by omega⟩
    · rw [setHook_hookfds_of_ne _ _ _ _ he] at h0 ⊢
      exact h.hooked fd hfd h0

/-! ### Closing -/

theorem myfsClose_opened (s : Fs N) (fd k : ℕ) :
    ((myfsClose s fd).states k).flags.opened =
      if k = fd then !(s.states fd).flags.opened else (s.states k).flags.opened := by
  unfold myfsClose
  by_cases hk : k = fd
  · subst hk
    rw [Fs.setState_self, if_pos rfl]
  · rw [Fs.setState_of_ne _ _ hk, if_neg hk]

/-- The process after a hooked descriptor of slot `i` is closed. -/
def closed (s : Process N) (fd i : ℕ) : Process N :=
  (s.setHook fd notUsedFd (s.curPos fd) (myfsClose s.fs i)).kernelClose fd

theorem openAt_closed (s : Process N) (fd i k l : ℕ) :
    OpenAt (closed s fd i) k l ↔ k ≠ fd ∧ OpenAt s k l := by
  unfold OpenAt closed
  rw [kernelClose_hookfds]
  by_cases hk : k = fd
  · subst hk
    rw [setHook_hookfds_self]
    simp [notUsedFd]
  · rw [setHook_hookfds_of_ne _ _ _ _ hk, kernelClose_of_ne _ (by omega), setHook_kernel]
    simp [hk]

theorem closed_opened (s : Process N) (fd i k : ℕ) :
    ((closed s fd i).fs.states k).flags.opened =
      if k = i then !(s.fs.states i).flags.opened else (s.fs.states k).flags.opened := by
  unfold closed
  rw [kernelClose_fs]
  exact myfsClose_opened s.fs i k

theorem FlagInv.closed {s : Process N} (h : FlagInv s) {fd i : ℕ} (hfd : OpenAt s fd i)
    (hi : i < maxFiles) (hlast : ∀ k, OpenAt s k i → k = fd) : FlagInv (closed s fd i) := by
  constructor
  · intro l hl
    rw [closed_opened]
    simp only [openAt_closed]
    by_cases hli : l = i
    · subst hli
      have hset := (h.track l hl).mpr ⟨fd, hfd⟩
      rw [if_pos rfl, hset]
      refine iff_of_false (by decide) ?_
      rintro ⟨k, hne, hk⟩
      exact hne (hlast k hk)
    · rw [if_neg hli, h.track l hl]
      refine exists_congr fun k => ?_
      constructor
      · intro hk
        refine ⟨?_, hk⟩
        rintro rfl
        have := hk.2.1
        have := hfd.2.1
        omega
      · exact fun hk => hk.2
  · intro k hk h0
    by_cases he : k = fd
    · subst he
      rw [Hook.closed, kernelClose_hookfds, setHook_hookfds_self] at h0
      exact absurd h0 (by decide)
    · rw [Hook.closed, kernelClose_hookfds, setHook_hookfds_of_ne _ _ _ _ he] at h0 ⊢
      rw [kernelClose_of_ne _ (by omega), setHook_kernel]
      exact h.hooked k hk h0

/-- Another descriptor of the slot stays open under a cleared flag. -/
theorem closed_not_track {s : Process N} (h : FlagInv s) {fd i k : ℕ} (hi : i < maxFiles)
    (hk : OpenAt s k i) (hne : k ≠ fd) : ¬ FlagsTrack (closed s fd i) := by
  intro ht
  have hset := (h.track i hi).mpr ⟨k, hk⟩
  have hcleared := (ht i hi).mpr ⟨k, (openAt_closed ..).mpr ⟨hne, hk⟩⟩
  rw [closed_opened, if_pos rfl, hset] at hcleared
  cases hcleared

/-- A descriptor that is not hooked is closed. -/
theorem FlagInv.kernelClose {s : Process N} (h : FlagInv s) {fd : ℤ}
    (hfd : InTable fd → ¬ 0 ≤ s.hookfds fd.toNat) : FlagInv (s.kernelClose fd) := by
  have hne : ∀ k < maxHookfd, 0 ≤ s.hookfds k → (k : ℤ) ≠ fd := by
    rintro k hk h0 rfl
    exact hfd ⟨by omega, by omega⟩ (by simpa using h0)
  constructor
  · intro i hi
    rw [kernelClose_fs, h.track i hi]
    refine exists_congr fun k => ?_
    unfold OpenAt
    rw [kernelClose_hookfds]
    by_cases hk : k < maxHookfd ∧ s.hookfds k = i
    · rw [kernelClose_of_ne s (hne k hk.1 (by omega))]
    · constructor
      · exact fun ⟨hlt, he, _⟩ => absurd ⟨hlt, he⟩ hk
      · exact fun ⟨hlt, he, _⟩ => absurd ⟨hlt, he⟩ hk
  · intro k hk h0
    rw [kernelClose_hookfds] at h0 ⊢
    rw [kernelClose_of_ne s (hne k hk h0)]
    exact h.hooked k hk h0

/-! ### Runs -/

theorem flagInv_step (o : FlagCall) (s : Process N) (h : FlagInv s) (hA : o.Admissible s)
    (hC : o.Single cfg s) : (o.step cfg s).Safe FlagInv := by
  cases o with
  | openat filename ret =>
    have hopen := h.kernelOpen (.openat filename) hA
    rw [FlagCall.step, hookOpenat]
    split_ifs with hh
    · obtain ⟨h0, hcan⟩ := hC hh
      refine hookOpened_safe.mpr fun hlt => ⟨h0, ?_, fun fs i ho => ?_⟩
      · rw [kernelOpen_fs]
        exact hcan hlt
      · obtain ⟨fd, rfl⟩ := Int.eq_ofNat_of_zero_le h0
        rw [Int.toNat_natCast]
        have hnone := hA h0
        rw [Int.toNat_natCast] at hnone
        have hself := kernelOpen_self s (.openat filename) fd
        refine hopen.opened (by omega) (by rw [hself]; simp) ?_ ho
        rw [kernelOpen_hookfds]
        exact fun hn => (h.hooked fd (by omega) hn).1 hnone
    · exact hopen
  | close fd =>
    obtain ⟨hin, hlast⟩ := hC
    obtain ⟨k, rfl⟩ := Int.eq_ofNat_of_zero_le hin.1
    have hk : k < maxHookfd := by have := hin.2; omega
    rw [FlagCall.step, hookClose, if_pos hin, Int.toNat_natCast]
    rw [Int.toNat_natCast] at hlast
    split_ifs with h0
    · obtain ⟨i, hi⟩ := Int.eq_ofNat_of_zero_le h0
      have hopen := h.hooked k hk h0
      rw [hi, Int.toNat_natCast] at hopen ⊢
      exact h.closed ⟨hk, hi, hopen.1⟩ hopen.2 fun l hl => hlast i l hi hl
    · exact h.kernelClose fun _ => by rwa [Int.toNat_natCast]

theorem untracked_step (o : FlagCall) (s : Process N) (h : FlagInv s) (_ : o.Admissible s)
    (hC : ¬ o.Single cfg s) : ¬ (o.step cfg s).Safe FlagsTrack := by
  cases o with
  | openat filename ret =>
    intro hs
    apply hC
    intro hh
    rw [FlagCall.step, hookOpenat, if_pos hh, hookOpened_safe, kernelOpen_fs] at hs
    refine ⟨?_, fun hlt => (hs hlt).2.1⟩
    by_cases hlt : ret < maxHookfd
    · exact (hs hlt).1
    · omega
  | close fd =>
    rw [FlagCall.step, hookClose]
    split_ifs with hin h0
    · have hC : ¬ (InTable fd ∧ _) := hC
      obtain ⟨k, rfl⟩ := Int.eq_ofNat_of_zero_le hin.1
      have hk : k < maxHookfd := by have := hin.2; omega
      rw [Int.toNat_natCast] at hC h0 ⊢
      obtain ⟨i, hi⟩ := Int.eq_ofNat_of_zero_le h0
      have hopen := h.hooked k hk h0
      rw [hi, Int.toNat_natCast] at hopen ⊢
      have hother : ∃ l, OpenAt s l i ∧ l ≠ k := by
        by_contra hno
        refine hC ⟨hin, fun j l hj hl => ?_⟩
        by_contra hne
        have hji : j = i := by omega
        exact hno ⟨l, hji ▸ hl, hne⟩
      obtain ⟨l, hl, hne⟩ := hother
      exact closed_not_track h hopen.2 hl hne
    · exact absurd ⟨hin, fun i k hi hk => absurd h0 (by omega)⟩ hC
    · exact Outcome.safe_fault _

theorem init_flagInv (kernel : ℕ → Option Origin) (sb : Superblock N) :
    FlagInv (Process.init kernel (myfsMount sb)) := by
  constructor
  · intro i hi
    refine iff_of_false (by simp [Process.init, myfsMount]) ?_
    rintro ⟨fd, -, he, -⟩
    have he : notUsedFd = i := he
    simp [notUsedFd] at he
  · intro fd hfd h0
    exact absurd h0 (by simp [Process.init, notUsedFd])

/-- From a mount on, the flags track the descriptors exactly in the runs that close every descriptor
as the last one of its slot. -/
theorem flags_iff_single (kernel : ℕ → Option Origin) (sb : Superblock N) (calls : List FlagCall)
    (hA : Meets (FlagCall.step cfg) FlagCall.Admissible calls (Process.init kernel (myfsMount sb))) :
    Always (FlagCall.step cfg) FlagsTrack calls (Process.init kernel (myfsMount sb)) ↔
      Meets (FlagCall.step cfg) (FlagCall.Single cfg) calls (Process.init kernel (myfsMount sb)) :=
  always_iff_meets (fun _ h => h.track) flagInv_step untracked_step (init_flagInv kernel sb) hA

/-! ### One file, opened twice -/

section Examples

/-- The hooked file open as descriptors 3 and 4. -/
def openedTwice : Process numBlocks :=
  (openedA.kernelOpen (.openat pathA) 4).setHook 4 0 0
    (openFound (oneFile numBlocks one_lt_numBlocks) 0)

theorem oneFile_firstMatch : FirstMatch (oneFile numBlocks one_lt_numBlocks).sb nameA 0 := by
  refine ⟨maxFiles_pos, ?_, fun k hk => absurd hk (Nat.not_lt_zero k)⟩
  rw [nameMatches_iff, oneFile_file]
  exact CString.isPrefix_refl _

theorem openedA_open : FlagCall.step configA (.openat pathA 4) openedA = .ok openedTwice := by
  have h : hookOpenat configA pathA (4 : ℕ) openedA = _ := hookOpenat_opened pathA_hooked
    (by simp [maxHookfd]) (Or.inl ⟨oneFile_firstMatch, rfl⟩)
  rw [Nat.cast_ofNat, Nat.cast_zero] at h
  rw [FlagCall.step, h]
  rfl

theorem openedTwice_close : FlagCall.step configA (.close 3) openedTwice =
    .ok (closed openedTwice 3 0) := by
  have h3 : openedTwice.hookfds (3 : ℤ).toNat = 0 := rfl
  rw [FlagCall.step, hookClose, if_pos three_inTable, h3, if_pos le_rfl]
  rfl

theorem started_flagInv : FlagInv started := by
  have h := init_flagInv (fun fd => if fd < 3 then some .dup2 else none)
    (zeroSuperblock numBlocks one_lt_numBlocks)
  rwa [mount_zero] at h

theorem started_single : FlagCall.Single configA (.openat pathA 3) started :=
  fun _ => ⟨by decide, fun _ => fresh_canOpen _ _⟩

theorem openedA_flagInv : FlagInv openedA := by
  have hopen : FlagCall.step configA (.openat pathA 3) started = .ok openedA := started_open
  have h : (FlagCall.step configA (.openat pathA 3) started).Safe FlagInv :=
    flagInv_step _ started started_flagInv (fun _ => rfl) started_single
  rwa [hopen, Outcome.safe_ok] at h

theorem openedA_free : openedA.kernel 4 = none := by simp [openedA_kernel]

theorem openedTwice_flagInv : FlagInv openedTwice := by
  have h : (FlagCall.step configA (.openat pathA 4) openedA).Safe FlagInv :=
    flagInv_step _ openedA openedA_flagInv (fun _ => openedA_free)
      fun _ => ⟨by decide, fun _ => Or.inl ⟨0, oneFile_firstMatch⟩⟩
  rwa [openedA_open, Outcome.safe_ok] at h

theorem openedTwice_openAt : OpenAt openedTwice 4 0 :=
  ⟨by simp [maxHookfd], rfl, by
    rw [openedTwice, setHook_kernel]
    have h := kernelOpen_self openedA (.openat pathA) 4
    rw [Nat.cast_ofNat] at h
    rw [h]
    simp⟩

/-- Open the file twice and close one descriptor. -/
def doubleRun : List FlagCall := [.openat pathA 3, .openat pathA 4, .close 3]

/-- After it the flag is cleared and descriptor 4 is open. -/
theorem double_not_tracked :
    Meets (FlagCall.step configA) FlagCall.Admissible doubleRun started ∧
      ¬ Always (FlagCall.step configA) FlagsTrack doubleRun started := by
  have hopen : FlagCall.step configA (.openat pathA 3) started = .ok openedA := started_open
  constructor
  · refine ⟨fun _ => rfl, ?_⟩
    rw [hopen, Outcome.after_ok]
    refine ⟨fun _ => openedA_free, ?_⟩
    rw [openedA_open, Outcome.after_ok]
    exact ⟨trivial, Outcome.After.of_forall (fun _ => trivial) _⟩
  · rintro ⟨-, h⟩
    rw [hopen, Outcome.safe_ok] at h
    obtain ⟨-, h⟩ := h
    rw [openedA_open, Outcome.safe_ok] at h
    obtain ⟨-, h⟩ := h
    rw [openedTwice_close, Outcome.safe_ok] at h
    exact closed_not_track openedTwice_flagInv maxFiles_pos openedTwice_openAt (by decide) h

/-- The theorem at a file that is opened and closed again. -/
theorem opened_once_tracked :
    Always (FlagCall.step configA) FlagsTrack [.openat pathA 3, .close 3] started := by
  have hopen : FlagCall.step configA (.openat pathA 3) started = .ok openedA := started_open
  rw [started, ← mount_zero]
  refine (flags_iff_single _ _ _ ?_).mpr ?_ <;> rw [mount_zero]
  · refine ⟨fun _ => rfl, ?_⟩
    change (FlagCall.step configA _ started).After _
    rw [hopen, Outcome.after_ok]
    exact ⟨trivial, Outcome.After.of_forall (fun _ => trivial) _⟩
  · refine ⟨started_single, ?_⟩
    change (FlagCall.step configA _ started).After _
    rw [hopen, Outcome.after_ok]
    refine ⟨⟨three_inTable, fun i k _ hk => ?_⟩, Outcome.After.of_forall (fun _ => trivial) _⟩
    by_contra hne
    have hne : k ≠ 3 := hne
    have he := hk.2.1
    rw [openedA, setHook_hookfds_of_ne _ _ _ _ hne, kernelOpen_hookfds] at he
    have he : notUsedFd = i := he
    simp [notUsedFd] at he

end Examples

end Pthabt.Hook
