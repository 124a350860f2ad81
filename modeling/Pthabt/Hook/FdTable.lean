import Pthabt.Hook.Dispatch
import Pthabt.Myfs.Conservation

/-! The two descriptor tables. `hookfds` is updated by an `openat` or a `close` that a ULT
makes and by nothing else, so it stays in step with the kernel's table exactly as long as
no hooked descriptor is closed outside a ULT or replaced by `dup2`, and the calls
of ULTs index the tables within their bounds. -/

namespace Pthabt.Hook

open Lib Run Myfs

variable {N : ℕ} (cfg : Config)

/-- The calls that change a descriptor table, with the results of the kernel. -/
inductive SysCall where
  | openat (ult : Bool) (filename : Path) (ret : ℤ)
  | close (ult : Bool) (fd : ℤ)
  | dup2 (ult : Bool) (oldfd newfd ret : ℤ)
  | socket (ult : Bool) (ret : ℤ)

def SysCall.step : SysCall → Process N → Outcome (Process N)
  | .openat true filename ret, s => hookOpenat cfg filename ret s
  | .openat false filename ret, s => .ok (s.kernelOpen (.openat filename) ret)
  | .close true fd, s => hookClose fd s
  | .close false fd, s => .ok (s.kernelClose fd)
  | .dup2 _ oldfd newfd ret, s => .ok (s.kernelDup2 oldfd newfd ret)
  | .socket _ ret, s => .ok (s.kernelOpen .socket ret)

/-- The kernel returns the lowest free descriptor or an error. -/
def LowestFree (s : Process N) (ret : ℤ) : Prop :=
  0 ≤ ret → s.kernel ret.toNat = none ∧ ∀ k < ret.toNat, s.kernel k ≠ none

/-- The kernel answers as it does. -/
def SysCall.Admissible : SysCall → Process N → Prop
  | .openat _ _ ret, s => LowestFree s ret
  | .close _ _, _ => True
  | .dup2 _ oldfd newfd ret, s =>
    0 ≤ ret → ret = newfd ∧ 0 ≤ oldfd ∧ s.kernel oldfd.toNat ≠ none
  | .socket _ ret, s => LowestFree s ret

/-- The descriptor was opened by an `openat` of a hooked path. -/
def OpenedHooked (s : Process N) (fd : ℕ) : Prop :=
  ∃ filename, s.kernel fd = some (.openat filename) ∧ isHookedFilename cfg filename = true

/-- `hookfds` has only descriptors that were opened by an `openat` of a hooked path. -/
def Routed (s : Process N) : Prop :=
  ∀ fd < maxHookfd, 0 ≤ s.hookfds fd → OpenedHooked cfg s fd

/-- Calls on the other descriptors go to the kernel. -/
def ForeignToKernel (s : Process N) : Prop :=
  ∀ fd < maxHookfd, ¬ OpenedHooked cfg s fd →
    ∀ ult call, route s ult call fd = some .kernel

/-- The descriptor is in the table and hooked. -/
def Hooked (s : Process N) (fd : ℤ) : Prop := InTable fd ∧ 0 ≤ s.hookfds fd.toNat

/-- A ULT opens hooked paths that exist or find room, and closes descriptors of the table; no
hooked descriptor is closed elsewhere or replaced. -/
def SysCall.InStep : SysCall → Process N → Prop
  | .openat ult filename ret, s =>
    ult = true → isHookedFilename cfg filename = true →
      0 ≤ ret ∧ (ret < maxHookfd → CanOpen s.fs.sb filename.chars)
  | .close true fd, _ => InTable fd
  | .close false fd, s => ¬ Hooked s fd
  | .dup2 _ oldfd newfd ret, s => 0 ≤ ret → oldfd ≠ newfd → ¬ Hooked s newfd
  | .socket _ _, _ => True

variable {cfg}

theorem Routed.foreign {s : Process N} (h : Routed cfg s) : ForeignToKernel cfg s := by
  intro fd hfd hno ult call
  have hneg : ¬ 0 ≤ s.hookfds fd := fun h0 => hno (h fd hfd h0)
  have hin : InTable (fd : ℤ) := ⟨by omega, by omega⟩
  have hby : byHookfd s fd = some .kernel := by
    rw [byHookfd, if_pos hin, Int.toNat_natCast, if_neg hneg]
  cases ult with
  | false => rfl
  | true =>
    cases call with
    | fstat =>
      simp only [route, ↓reduceIte, hby]
      split_ifs <;> rfl
    | _ => exact hby

/-! ### Single steps -/

theorem kernelOpen_of_ne (s : Process N) (o : Origin) {ret : ℤ} {fd : ℕ} (h : (fd : ℤ) ≠ ret) :
    (s.kernelOpen o ret).kernel fd = s.kernel fd := by
  rw [Process.kernelOpen]
  split_ifs with h0
  · exact Function.update_of_ne (by omega) _ _
  · rfl

theorem kernelOpen_self (s : Process N) (o : Origin) (fd : ℕ) :
    (s.kernelOpen o fd).kernel fd = some o := by
  simp [Process.kernelOpen]

@[simp] theorem kernelOpen_hookfds (s : Process N) (o : Origin) (ret : ℤ) :
    (s.kernelOpen o ret).hookfds = s.hookfds := by
  rw [Process.kernelOpen]
  split_ifs <;> rfl

@[simp] theorem kernelOpen_fs (s : Process N) (o : Origin) (ret : ℤ) :
    (s.kernelOpen o ret).fs = s.fs := by
  rw [Process.kernelOpen]
  split_ifs <;> rfl

theorem kernelClose_of_ne (s : Process N) {fd : ℤ} {k : ℕ} (h : (k : ℤ) ≠ fd) :
    (s.kernelClose fd).kernel k = s.kernel k := by
  rw [Process.kernelClose]
  split_ifs with h0
  · exact Function.update_of_ne (by omega) _ _
  · rfl

theorem kernelClose_self (s : Process N) (fd : ℕ) : (s.kernelClose fd).kernel fd = none := by
  simp [Process.kernelClose]

@[simp] theorem kernelClose_hookfds (s : Process N) (fd : ℤ) :
    (s.kernelClose fd).hookfds = s.hookfds := by
  rw [Process.kernelClose]
  split_ifs <;> rfl

@[simp] theorem kernelClose_fs (s : Process N) (fd : ℤ) : (s.kernelClose fd).fs = s.fs := by
  rw [Process.kernelClose]
  split_ifs <;> rfl

/-- What was opened by an `openat` of a hooked path stays so while the kernel keeps it. -/
theorem openedHooked_congr {s t : Process N} {fd : ℕ} (h : t.kernel fd = s.kernel fd) :
    OpenedHooked cfg t fd ↔ OpenedHooked cfg s fd := by
  rw [OpenedHooked, OpenedHooked, h]

/-- A new descriptor was not hooked, so no entry of the table loses its descriptor. -/
theorem routed_kernelOpen {s : Process N} (h : Routed cfg s) (o : Origin) {ret : ℤ}
    (hret : ¬ Hooked s ret) : Routed cfg (s.kernelOpen o ret) := by
  intro fd hfd h0
  rw [kernelOpen_hookfds] at h0
  have hne : (fd : ℤ) ≠ ret := by
    rintro rfl
    exact hret ⟨⟨by omega, by omega⟩, by simpa using h0⟩
  exact (openedHooked_congr (kernelOpen_of_ne s o hne)).mpr (h fd hfd h0)

theorem routed_kernelClose {s : Process N} (h : Routed cfg s) {fd : ℤ}
    (hfd : ¬ Hooked s fd) : Routed cfg (s.kernelClose fd) := by
  intro k hk h0
  rw [kernelClose_hookfds] at h0
  have hne : (k : ℤ) ≠ fd := by
    rintro rfl
    exact hfd ⟨⟨by omega, by omega⟩, by simpa using h0⟩
  exact (openedHooked_congr (kernelClose_of_ne s hne)).mpr (h k hk h0)

/-- The kernel never hands out a descriptor that is in `hookfds`. -/
theorem Routed.lowestFree {s : Process N} (h : Routed cfg s) {ret : ℤ} (hret : LowestFree s ret) :
    ¬ Hooked s ret := by
  rintro ⟨⟨h0, hlt⟩, hh⟩
  obtain ⟨filename, hk, -⟩ := h ret.toNat (by omega) hh
  rw [(hret h0).1] at hk
  cases hk

theorem setHook_hookfds_self (s : Process N) (fd : ℕ) (hookfd : ℤ) (pos : ℕ) (fs : Fs N) :
    (s.setHook fd hookfd pos fs).hookfds fd = hookfd := by simp [Process.setHook]

theorem setHook_hookfds_of_ne (s : Process N) (hookfd : ℤ) (pos : ℕ) (fs : Fs N) {fd k : ℕ}
    (h : k ≠ fd) : (s.setHook fd hookfd pos fs).hookfds k = s.hookfds k := by
  simp [Process.setHook, h]

@[simp] theorem setHook_kernel (s : Process N) (fd : ℕ) (hookfd : ℤ) (pos : ℕ) (fs : Fs N) :
    (s.setHook fd hookfd pos fs).kernel = s.kernel := rfl

/-- A hooked descriptor may enter the table once the kernel has opened its path. -/
theorem routed_setHook {s : Process N} (h : Routed cfg s) {fd : ℕ} {hookfd : ℤ} (pos : ℕ)
    (fs : Fs N) (hfd : 0 ≤ hookfd → OpenedHooked cfg s fd) :
    Routed cfg (s.setHook fd hookfd pos fs) := by
  intro k hk h0
  by_cases he : k = fd
  · subst he
    rw [setHook_hookfds_self] at h0
    exact hfd h0
  · rw [setHook_hookfds_of_ne _ _ _ _ he] at h0
    exact h k hk h0

theorem hookOpened_safe {s : Process N} {filename : Path} {ret : ℤ} {P : Process N → Prop} :
    (hookOpened filename ret s).Safe P ↔
      (ret < maxHookfd → 0 ≤ ret ∧ CanOpen s.fs.sb filename.chars ∧
        ∀ fs i, OpenResult s.fs filename.chars fs i → P (s.setHook ret.toNat i 0 fs)) := by
  unfold hookOpened
  split_ifs with hlt h0
  · cases ho : myfsOpen s.fs filename.chars with
    | none =>
      have hno : ¬ CanOpen s.fs.sb filename.chars := by
        rw [← myfsOpen_isSome]
        rintro ⟨fs, i, h⟩
        rw [ho] at h
        cases h
      simp [hno, hlt]
    | some r =>
      have hr := myfsOpen_eq_some.mp ho
      have hc : CanOpen s.fs.sb filename.chars := myfsOpen_isSome.mp ⟨r.1, r.2, ho⟩
      simp only [Outcome.safe_ok, hlt, h0, hc, true_and, forall_const]
      constructor
      · intro hP fs i h
        have := myfsOpen_eq_some.mpr h
        rw [ho, Option.some.injEq] at this
        subst this
        exact hP
      · intro h
        exact h r.1 r.2 hr
  · simp [hlt, h0]
  · simp [hlt]

/-- An `openat` of a hooked path that succeeds within the table. -/
theorem hookOpenat_opened {s : Process N} {filename : Path} {fs : Fs N} {fd i : ℕ}
    (hh : isHookedFilename cfg filename = true) (hfd : fd < maxHookfd)
    (ho : OpenResult s.fs filename.chars fs i) :
    hookOpenat cfg filename fd s = .ok ((s.kernelOpen (.openat filename) fd).setHook fd i 0 fs) := by
  have hlt : (fd : ℤ) < maxHookfd := by omega
  rw [hookOpenat, if_pos hh, hookOpened, if_pos hlt, if_pos (Int.natCast_nonneg fd), kernelOpen_fs,
    myfsOpen_eq_some.mpr ho, Int.toNat_natCast]

/-- A call in step keeps the tables in step. -/
theorem routed_step (o : SysCall) (s : Process N) (h : Routed cfg s) (hA : o.Admissible s)
    (hC : o.InStep cfg s) : (o.step cfg s).Safe (Routed cfg) := by
  cases o with
  | openat ult filename ret =>
    have hopen := routed_kernelOpen h (.openat filename) (h.lowestFree hA)
    cases ult with
    | false => exact hopen
    | true =>
      rw [SysCall.step, hookOpenat]
      split_ifs with hh
      · obtain ⟨h0, hcan⟩ := hC rfl hh
        refine hookOpened_safe.mpr fun hlt => ⟨h0, ?_, fun fs i _ => ?_⟩
        · rw [kernelOpen_fs]
          exact hcan hlt
        · refine routed_setHook hopen 0 fs fun _ => ⟨filename, ?_, hh⟩
          have hself := kernelOpen_self s (.openat filename) ret.toNat
          rwa [Int.toNat_of_nonneg h0] at hself
      · exact hopen
  | close ult fd =>
    cases ult with
    | false => exact routed_kernelClose h hC
    | true =>
      have hin : InTable fd := hC
      rw [SysCall.step, hookClose, if_pos hin]
      split_ifs with h0
      · have hneg : ¬ 0 ≤ notUsedFd := by decide
        refine routed_kernelClose (routed_setHook h _ _ fun hn => absurd hn hneg) ?_
        rintro ⟨-, hn⟩
        rw [setHook_hookfds_self] at hn
        exact hneg hn
      · exact routed_kernelClose h fun hh => h0 hh.2
  | dup2 ult oldfd newfd ret =>
    rw [SysCall.step, Outcome.safe_ok, Process.kernelDup2]
    split_ifs with hd
    · exact routed_kernelOpen h .dup2 (hC hd.1 hd.2)
    · exact h
  | socket ult ret => exact routed_kernelOpen h .socket (h.lowestFree hA)

/-- A hooked entry whose descriptor was not opened by `openat`, or is closed. -/
theorem not_routed {s : Process N} (fd : ℤ) (h : Hooked s fd)
    (hno : ∀ filename, s.kernel fd.toNat ≠ some (.openat filename)) : ¬ Routed cfg s := by
  intro hr
  obtain ⟨⟨h0, hlt⟩, hh⟩ := h
  obtain ⟨filename, hk, -⟩ := hr fd.toNat (by omega) hh
  exact hno filename hk

theorem kernelClose_not_routed {s : Process N} {fd : ℤ} (h : Hooked s fd) :
    ¬ Routed cfg (s.kernelClose fd) := by
  have hself := kernelClose_self s fd.toNat
  rw [Int.toNat_of_nonneg h.1.1] at hself
  refine not_routed fd ?_ fun filename => by rw [hself]; exact fun hn => by cases hn
  rwa [Hooked, kernelClose_hookfds]

theorem kernelDup2_not_routed {s : Process N} {fd : ℤ} (h : Hooked s fd) :
    ¬ Routed cfg (s.kernelOpen .dup2 fd) := by
  have hself := kernelOpen_self s .dup2 fd.toNat
  rw [Int.toNat_of_nonneg h.1.1] at hself
  refine not_routed fd ?_ fun filename => by rw [hself]; exact fun hn => by cases hn
  rwa [Hooked, kernelOpen_hookfds]

/-- A call out of step is undefined or leaves an entry without its descriptor. -/
theorem unrouted_step (o : SysCall) (s : Process N) (_ : Routed cfg s) (_ : o.Admissible s)
    (hC : ¬ o.InStep cfg s) : ¬ (o.step cfg s).Safe (Routed cfg) := by
  cases o with
  | openat ult filename ret =>
    cases ult with
    | false => exact absurd (fun h => by cases h) hC
    | true =>
      intro hs
      apply hC
      intro _ hh
      rw [SysCall.step, hookOpenat, if_pos hh, hookOpened_safe, kernelOpen_fs] at hs
      refine ⟨?_, fun hlt => (hs hlt).2.1⟩
      by_cases hlt : ret < maxHookfd
      · exact (hs hlt).1
      · omega
  | close ult fd =>
    cases ult with
    | false => exact kernelClose_not_routed (not_not.mp hC)
    | true =>
      have hin : ¬ InTable fd := hC
      rw [SysCall.step, hookClose, if_neg hin]
      exact Outcome.safe_fault _
  | dup2 ult oldfd newfd ret =>
    have hC : ¬ (0 ≤ ret → oldfd ≠ newfd → ¬ Hooked s newfd) := hC
    push Not at hC
    obtain ⟨h0, hne, hh⟩ := hC
    rw [SysCall.step, Outcome.safe_ok, Process.kernelDup2, if_pos ⟨h0, hne⟩]
    exact kernelDup2_not_routed hh
  | socket ult ret => exact absurd trivial hC

/-! ### Runs -/

theorem init_routed (kernel : ℕ → Option Origin) (fs : Fs N) :
    Routed cfg (Process.init kernel fs) :=
  fun _ _ h => absurd h (by simp [Process.init, notUsedFd])

/-! ### Failed calls -/

/-- A failed `openat` leaves the process as it was, and one that is hooked and succeeds sets
`hookfds` and `cur_pos` at its result only. -/
structure OpenatClean (cfg : Config) (filename : Path) (ret : ℤ) (s : Process N) : Prop where
  failed : ret < 0 → hookOpenat cfg filename ret s = .ok s
  opened : isHookedFilename cfg filename = true → InTable ret → ∃ s' slot,
    hookOpenat cfg filename ret s = .ok s' ∧
      s'.hookfds = Function.update s.hookfds ret.toNat slot ∧
      s'.curPos = Function.update s.curPos ret.toNat 0

theorem kernelOpen_failed (s : Process N) (o : Origin) {ret : ℤ} (h : ret < 0) :
    s.kernelOpen o ret = s := by simp [Process.kernelOpen, h]

@[simp] theorem kernelOpen_curPos (s : Process N) (o : Origin) (ret : ℤ) :
    (s.kernelOpen o ret).curPos = s.curPos := by
  rw [Process.kernelOpen]
  split_ifs <;> rfl

/-- A hooked `openat` goes on when it ends the process, or has a descriptor and finds a slot. -/
theorem hookOpenat_hooked {s : Process N} {filename : Path} {ret : ℤ}
    (hh : isHookedFilename cfg filename = true) (hlt : ret < maxHookfd) :
    (∃ s', hookOpenat cfg filename ret s = .ok s') ↔ 0 ≤ ret ∧ CanOpen s.fs.sb filename.chars := by
  rw [hookOpenat, if_pos hh, ← myfsOpen_isSome, hookOpened, if_pos hlt, kernelOpen_fs]
  by_cases h0 : 0 ≤ ret
  · rw [if_pos h0]
    cases myfsOpen s.fs filename.chars with
    | none => simp
    | some r => exact iff_of_true ⟨_, rfl⟩ ⟨h0, r.1, r.2, rfl⟩
  · simp [h0]

theorem openat_clean_iff (cfg : Config) (filename : Path) (ret : ℤ) (s : Process N) :
    OpenatClean cfg filename ret s ↔ (isHookedFilename cfg filename = true →
      0 ≤ ret ∧ (ret < maxHookfd → CanOpen s.fs.sb filename.chars)) := by
  constructor
  · rintro ⟨hfailed, hopened⟩ hh
    by_cases h0 : 0 ≤ ret
    · refine ⟨h0, fun hlt => ?_⟩
      obtain ⟨s', -, hs', -⟩ := hopened hh ⟨h0, hlt⟩
      exact ((hookOpenat_hooked hh hlt).mp ⟨s', hs'⟩).2
    · have hlt : ret < maxHookfd := by omega
      exact absurd ((hookOpenat_hooked hh hlt).mp ⟨s, hfailed (by omega)⟩).1 h0
  · intro h
    refine ⟨fun hneg => ?_, fun hh hin => ?_⟩
    · -- a negative result is of a path that is not hooked
      have hno : ¬ isHookedFilename cfg filename = true := fun hh => absurd (h hh).1 (by omega)
      rw [hookOpenat, if_neg hno, kernelOpen_failed s _ hneg]
    · obtain ⟨fs, i, ho⟩ := myfsOpen_isSome.mpr ((h hh).2 hin.2)
      refine ⟨(s.kernelOpen (.openat filename) ret).setHook ret.toNat i 0 fs, i, ?_, ?_, ?_⟩
      · rw [hookOpenat, if_pos hh, hookOpened, if_pos hin.2, if_pos hin.1, kernelOpen_fs, ho]
      · simp [Process.setHook]
      · simp [Process.setHook]

/-! ### One hooked file -/

section Examples

def configA : Config := ⟨[nameA], none⟩

def pathA : Path := ⟨nameA, fun _ => 0⟩

/-- A process with its three standard descriptors. -/
def started : Process numBlocks :=
  Process.init (fun fd => if fd < 3 then some .dup2 else none) (freshFs numBlocks one_lt_numBlocks)

/-- The same with the hooked file open as descriptor 3. -/
def openedA : Process numBlocks :=
  (started.kernelOpen (.openat pathA) 3).setHook 3 0 0 (oneFile numBlocks one_lt_numBlocks)

theorem three_inTable : InTable 3 := ⟨by decide, by simp [maxHookfd]⟩

theorem pathA_hooked : isHookedFilename configA pathA = true := by decide

theorem started_open : SysCall.step configA (.openat true pathA 3) started = .ok openedA := by
  have h : hookOpenat configA pathA (3 : ℕ) started = _ := hookOpenat_opened pathA_hooked
    (by simp [maxHookfd]) (fresh_openResult numBlocks one_lt_numBlocks)
  rw [Nat.cast_ofNat, Nat.cast_zero] at h
  rw [SysCall.step, h, openedA]

theorem openedA_hooked : Hooked openedA 3 := by
  refine ⟨three_inTable, ?_⟩
  rw [openedA, show (3 : ℤ).toNat = 3 from rfl, setHook_hookfds_self]

theorem started_kernel (fd : ℕ) :
    started.kernel fd = if fd < 3 then some .dup2 else none := rfl

theorem openedA_kernel (fd : ℕ) : openedA.kernel fd =
    if fd = 3 then some (.openat pathA) else if fd < 3 then some .dup2 else none := by
  rw [openedA, setHook_kernel]
  by_cases h : fd = 3
  · subst h
    rw [if_pos rfl]
    exact kernelOpen_self started (.openat pathA) 3
  · rw [if_neg h, kernelOpen_of_ne _ _ (by omega), started_kernel]

theorem started_lowest : LowestFree started 3 := by
  refine fun _ => ⟨rfl, fun k hk => ?_⟩
  have hk : k < 3 := hk
  simp [started_kernel, hk]

theorem openedA_lowest : LowestFree openedA 4 := by
  refine fun _ => ⟨by simp [openedA_kernel], fun k hk => ?_⟩
  have hk : k < 4 := hk
  rw [openedA_kernel]
  split_ifs with h3 h
  · simp
  · simp
  · omega

/-- Replace the descriptor of the hooked file by a socket. -/
def replaceRun : List SysCall := [.openat true pathA 3, .socket true 4, .dup2 true 4 3 3]

/-- Close the descriptor of the hooked file outside a ULT. -/
def closeRun : List SysCall := [.openat true pathA 3, .close false 3]

/-- The kernel does not find the file. `myfs_open` makes it, and its slot is stored before the table. -/
theorem failed_openat_not_clean :
    ¬ OpenatClean configA pathA (-2) started ∧ hookOpenat configA pathA (-2) started = .fault ∧
      myfsOpen started.fs pathA.chars = some (oneFile numBlocks one_lt_numBlocks, 0) ∧
      ((oneFile numBlocks one_lt_numBlocks).sb.file 0).name = nameA ∧
      (started.fs.sb.file 0).name = CString.empty := by
  refine ⟨fun h => ?_, rfl, ?_, ?_, ?_⟩
  · exact absurd ((openat_clean_iff _ _ _ _).mp h pathA_hooked).1 (by decide)
  · exact myfsOpen_eq_some.mpr (fresh_openResult numBlocks one_lt_numBlocks)
  · rw [oneFile, openNew_file, Function.update_self]
  · rw [show started.fs = freshFs numBlocks one_lt_numBlocks from rfl, fresh_file _ _ maxFiles_pos]

end Examples

end Pthabt.Hook
