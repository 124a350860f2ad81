import Pthabt.Hook.Dispatch

/-! The descriptor argument of `hook_function`. It arrives as a 64-bit register, is cut to an
`int` in `SYS_close`, `SYS_read` and `pread64` and used as it is in `SYS_write`, `pwrite64`
and `newfstatat`, and indexes `hookfds` and `cur_pos` in either form. Only `newfstatat` tests
it, for the sign of its low half. -/

namespace Pthabt.Hook

open Lib Myfs

variable {N : ℕ}

/-- The calls with a descriptor. -/
inductive FdCall where
  | close
  | io (call : IoCall)

/-- The tables indexed by descriptor. -/
inductive FdArray where
  | hookfds
  | curPos
  deriving DecidableEq

/-- What `hook_function` does for a call: it accesses an element of a table, carries the call
out on a slot of myfs, or passes it to the kernel with this descriptor. -/
inductive HookAct where
  | access (array : FdArray) (index : ℤ)
  | myfs (hookfd : ℤ)
  | kernel (a2 : BitVec 64)
  deriving DecidableEq

/-- `int fd = a2`. -/
def fdInt (a2 : BitVec 64) : ℤ := (a2.setWidth 32).toInt

/-- `a2` itself, a `long`. -/
def fdLong (a2 : BitVec 64) : ℤ := a2.toInt

/-- What follows the load of `hookfds[fd]`: `hooked` when it is not negative. -/
def byValue (hookfds : ℤ → ℤ) (fd : ℤ) (hooked : List HookAct) (a2 : BitVec 64) : List HookAct :=
  .access .hookfds fd :: if 0 ≤ hookfds fd then hooked else [.kernel a2]

/-- The branch of `hook_function`. Outside the table's bounds, `hookfds` is the memory next to
it. -/
def hookActs (hookfds : ℤ → ℤ) (a2 : BitVec 64) : FdCall → List HookAct
  | .close =>
    byValue hookfds (fdInt a2)
      [.access .hookfds (fdInt a2), .myfs (hookfds (fdInt a2)), .access .hookfds (fdInt a2),
        .kernel a2] a2
  | .io .read =>
    byValue hookfds (fdInt a2)
      [.access .curPos (fdInt a2), .myfs (hookfds (fdInt a2)), .access .curPos (fdInt a2)] a2
  | .io .pread64 => byValue hookfds (fdInt a2) [.myfs (hookfds (fdInt a2))] a2
  | .io .write =>
    byValue hookfds (fdLong a2)
      [.access .curPos (fdLong a2), .myfs (hookfds (fdLong a2)), .access .curPos (fdLong a2)] a2
  | .io .pwrite64 => byValue hookfds (fdLong a2) [.myfs (hookfds (fdLong a2))] a2
  | .io .fstat =>
    if 0 ≤ fdInt a2 then
      byValue hookfds (fdLong a2)
        [.access .hookfds (fdLong a2), .myfs (hookfds (fdLong a2))] a2
    else [.kernel a2]

/-- What a call does besides its accesses to the tables. -/
def HookAct.isAccess : HookAct → Bool
  | .access _ _ => true
  | _ => false

/-- Every access is within the tables, and a descriptor that is not only goes to the kernel. -/
structure FdInRange (hookfds : ℤ → ℤ) (a2 : BitVec 64) (call : FdCall) : Prop where
  access : ∀ array index, HookAct.access array index ∈ hookActs hookfds a2 call → InTable index
  outside : ¬ InTable (fdLong a2) →
    (hookActs hookfds a2 call).filter (fun act => !act.isAccess) = [.kernel a2]

/-- The descriptor as each branch uses it. -/
def FdFits (hookfds : ℤ → ℤ) (a2 : BitVec 64) : FdCall → Prop
  | .close | .io .read | .io .pread64 =>
    InTable (fdLong a2) ∨ InTable (fdInt a2) ∧ hookfds (fdInt a2) < 0
  | .io .write | .io .pwrite64 => InTable (fdLong a2)
  | .io .fstat => InTable (fdLong a2) ∨ fdInt a2 < 0

/-- A descriptor of the tables is not changed by the cut to 32 bits. -/
theorem fdInt_of_inTable {a2 : BitVec 64} (h : InTable (fdLong a2)) : fdInt a2 = fdLong a2 := by
  unfold InTable fdLong maxHookfd at h
  unfold fdInt fdLong
  rw [BitVec.toInt_eq_toNat_cond] at h ⊢
  rw [BitVec.toInt_eq_toNat_cond, BitVec.toNat_setWidth]
  split_ifs at h ⊢ <;> omega

section Value

variable {hookfds : ℤ → ℤ} {a2 : BitVec 64} {fd : ℤ} {hooked : List HookAct}

theorem byValue_hooked (h : 0 ≤ hookfds fd) :
    byValue hookfds fd hooked a2 = .access .hookfds fd :: hooked := by rw [byValue, if_pos h]

theorem byValue_kernel (h : hookfds fd < 0) :
    byValue hookfds fd hooked a2 = [.access .hookfds fd, .kernel a2] := by
  rw [byValue, if_neg (not_le.mpr h)]

/-- A branch that loads `hookfds[fd]` first, and then goes to no other index. -/
theorem byValue_inRange (hin : ∀ array index, HookAct.access array index ∈ hooked → index = fd) :
    (∀ array index, HookAct.access array index ∈ byValue hookfds fd hooked a2 → InTable index) ↔
      InTable fd := by
  constructor
  · exact fun h => h .hookfds fd List.mem_cons_self
  · intro hfd array index hmem
    rcases List.mem_cons.mp hmem with he | hmem
    · injection he with _ he
      exact he ▸ hfd
    · split_ifs at hmem
      · exact hin array index hmem ▸ hfd
      · simp at hmem

/-- A branch that calls myfs for a hooked descriptor only goes to the kernel for the others. -/
theorem byValue_toKernel {h : ℤ} (hmyfs : .myfs h ∈ hooked) :
    (byValue hookfds fd hooked a2).filter (fun act => !act.isAccess) = [.kernel a2] ↔
      hookfds fd < 0 := by
  constructor
  · intro he
    by_contra hneg
    rw [byValue_hooked (not_lt.mp hneg)] at he
    have hmem : HookAct.myfs h ∈ (HookAct.access .hookfds fd :: hooked).filter
        (fun act => !act.isAccess) :=
      List.mem_filter.mpr ⟨List.mem_cons_of_mem _ hmyfs, rfl⟩
    rw [he] at hmem
    simp at hmem
  · intro hneg
    rw [byValue_kernel hneg]
    rfl

/-- Such a branch handles the descriptor in range when `fd` is in the tables and, if the register
is not, not hooked. -/
theorem byValue_iff {h : ℤ} {call : FdCall} (hacts : hookActs hookfds a2 call =
      byValue hookfds fd hooked a2)
    (hin : ∀ array index, HookAct.access array index ∈ hooked → index = fd)
    (hmyfs : .myfs h ∈ hooked) :
    FdInRange hookfds a2 call ↔ InTable fd ∧ (¬ InTable (fdLong a2) → hookfds fd < 0) := by
  constructor
  · rintro ⟨haccess, hout⟩
    rw [hacts] at haccess hout
    exact ⟨(byValue_inRange hin).mp haccess, fun hno => (byValue_toKernel hmyfs).mp (hout hno)⟩
  · rintro ⟨hfd, hneg⟩
    constructor
    · rw [hacts]
      exact (byValue_inRange hin).mpr hfd
    · intro hno
      rw [hacts]
      exact (byValue_toKernel hmyfs).mpr (hneg hno)

end Value

/-- The calls that cut the register to an `int`. -/
theorem fitsInt_iff (hookfds : ℤ → ℤ) (a2 : BitVec 64) :
    InTable (fdInt a2) ∧ (¬ InTable (fdLong a2) → hookfds (fdInt a2) < 0) ↔
      InTable (fdLong a2) ∨ InTable (fdInt a2) ∧ hookfds (fdInt a2) < 0 := by
  by_cases h : InTable (fdLong a2)
  · rw [fdInt_of_inTable h]
    simp [h]
  · simp [h]

theorem fitsLong_iff (hookfds : ℤ → ℤ) (a2 : BitVec 64) :
    InTable (fdLong a2) ∧ (¬ InTable (fdLong a2) → hookfds (fdLong a2) < 0) ↔
      InTable (fdLong a2) := by
  simp only [and_iff_left_iff_imp]
  exact fun h hno => absurd h hno

theorem fstat_inRange_iff (hookfds : ℤ → ℤ) (a2 : BitVec 64) :
    FdInRange hookfds a2 (.io .fstat) ↔ InTable (fdLong a2) ∨ fdInt a2 < 0 := by
  by_cases h : 0 ≤ fdInt a2
  · have hacts : hookActs hookfds a2 (.io .fstat) = byValue hookfds (fdLong a2)
        [.access .hookfds (fdLong a2), .myfs (hookfds (fdLong a2))] a2 := if_pos h
    rw [byValue_iff hacts (by simp) (List.mem_cons_of_mem _ List.mem_cons_self), fitsLong_iff]
    simp [not_lt.mpr h]
  · refine iff_of_true ?_ (Or.inr (not_le.mp h))
    have hacts : hookActs hookfds a2 (.io .fstat) = [.kernel a2] := if_neg h
    constructor
    · simp [hacts]
    · simp [hacts, HookAct.isAccess]

/-- Every descriptor argument is handled in range exactly when it fits the form in which the branch
uses it. -/
theorem fd_in_range_iff (hookfds : ℤ → ℤ) (a2 : BitVec 64) (call : FdCall) :
    FdInRange hookfds a2 call ↔ FdFits hookfds a2 call := by
  cases call with
  | close =>
    rw [FdFits, ← fitsInt_iff]
    exact byValue_iff rfl (by simp) (List.mem_cons_of_mem _ List.mem_cons_self)
  | io call =>
    cases call with
    | read =>
      rw [FdFits, ← fitsInt_iff]
      exact byValue_iff rfl (by simp) (List.mem_cons_of_mem _ List.mem_cons_self)
    | pread64 =>
      rw [FdFits, ← fitsInt_iff]
      exact byValue_iff rfl (by simp) List.mem_cons_self
    | write =>
      rw [FdFits, ← fitsLong_iff hookfds]
      exact byValue_iff rfl (by simp) (List.mem_cons_of_mem _ List.mem_cons_self)
    | pwrite64 =>
      rw [FdFits, ← fitsLong_iff hookfds]
      exact byValue_iff rfl (by simp) List.mem_cons_self
    | fstat => exact fstat_inRange_iff hookfds a2

/-- What a route does. -/
def Route.act (a2 : BitVec 64) : Route → HookAct
  | .kernel => .kernel a2
  | .myfs hookfd => .myfs hookfd

/-- For the descriptors of the tables, the branches do what `route` says. -/
theorem hookActs_route (s : Process N) (call : IoCall) {a2 : BitVec 64} (h : InTable (fdLong a2)) :
    ∃ r, route s true call (fdLong a2) = some r ∧
      (hookActs (fun fd => s.hookfds fd.toNat) a2 (.io call)).filter (fun act => !act.isAccess) =
        [r.act a2] := by
  have hint := fdInt_of_inTable h
  have hby : byHookfd s (fdLong a2) = some (if 0 ≤ s.hookfds (fdLong a2).toNat
      then .myfs (s.hookfds (fdLong a2).toNat) else .kernel) := by rw [byHookfd, if_pos h]
  refine ⟨if 0 ≤ s.hookfds (fdLong a2).toNat then .myfs (s.hookfds (fdLong a2).toNat) else .kernel,
    ?_, ?_⟩
  · cases call with
    | fstat => simp only [route, if_true, if_pos h.1, hby]
    | _ => simp only [route, if_true, hby]
  · by_cases h0 : 0 ≤ s.hookfds (fdLong a2).toNat
    · cases call <;> simp [hookActs, byValue, hint, h0, h.1, HookAct.isAccess, Route.act]
    · cases call <;> simp [hookActs, byValue, hint, h0, h.1, HookAct.isAccess, Route.act]

/-- Closing -1 loads the element before `hookfds`. Descriptor 1024 indexes behind the tables, and
so does any other from there on, in every one of the calls. -/
theorem fd_out_of_range :
    ¬ FdInRange (fun _ => notUsedFd) (-1) .close ∧
      HookAct.access .hookfds (-1) ∈ hookActs (fun _ => notUsedFd) (-1) .close ∧
      ∀ call, ¬ FdInRange (fun _ => notUsedFd) 1024#64 call := by
  have hmax : maxHookfd = 1024 := by simp [maxHookfd]
  have hlow : ¬ InTable (-1) := by simp [InTable]
  have hhigh : ¬ InTable 1024 := by simp [InTable, hmax]
  have hint : fdInt (-1) = -1 := by decide
  have hlong : fdLong (-1) = -1 := by decide
  have hint' : fdInt 1024#64 = 1024 := by decide
  have hlong' : fdLong 1024#64 = 1024 := by decide
  refine ⟨?_, by decide, fun call => ?_⟩
  · rw [fd_in_range_iff, FdFits, hint, hlong]
    simp [hlow]
  · rw [fd_in_range_iff]
    cases call with
    | close => simp [FdFits, hint', hlong', hhigh]
    | io call => cases call <;> simp [FdFits, hint', hlong', hhigh]

end Pthabt.Hook
