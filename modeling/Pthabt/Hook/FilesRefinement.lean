import Pthabt.Hook.Files
import Pthabt.Hook.NextStep

/-! A hooked process refines its files: in every run the calls on hooked descriptors are the steps
that `Files` allows, with the bytes that the reads bring. -/

namespace Pthabt.Hook

open Lib Run Myfs Nvme

/-! ### A call that goes on -/

section GoesOn

variable {c : IoConfig} {s s' : System} {io io' : Io}

/-- The arguments of a call in progress, and what it is for. -/
structure SameCall (io io' : Io) : Prop where
  write : io'.write = io.write
  hookfd : io'.hookfd = io.hookfd
  len : io'.len = io.len
  pos : io'.pos = io.pos

/-- What the program did is not changed by a call that goes on. -/
structure SameFiles (s s' : System) : Prop where
  opened : s'.opened = s.opened
  content : s'.content = s.content

theorem SameFiles.rfl : SameFiles s s := ⟨Eq.refl _, Eq.refl _⟩

/-- A call goes on, or returns. -/
def GoesOn (s s' : System) : Prop :=
  match s.returning with
  | some io => s.io = some io ∧ s'.io = none
  | none => (s.io = none ∧ s'.io = none) ∨
    ∃ io io', s.io = some io ∧ s'.io = some io' ∧ SameCall io io'

theorem returning_of_call (hio : s.io = some io) (hcall : io.call ≠ .loop) : s.returning = none := by
  unfold System.returning
  rw [hio]
  dsimp only
  cases hc : io.call with
  | loop => exact absurd hc hcall
  | request did rqK back => rfl
  | test again k back => rfl
  | poll k back => rfl

theorem returning_of_pc (hio : s.io = some io) (hpc : io.pc ≠ .done) : s.returning = none := by
  unfold System.returning
  rw [hio]
  dsimp only
  cases hp : io.pc with
  | done => exact absurd hp hpc
  | outer j => cases io.call <;> rfl
  | inner rqK j => cases io.call <;> rfl
  | wait k rqK j => cases io.call <;> rfl

theorem returning_of_done (hio : s.io = some io) (hcall : io.call = .loop) (hpc : io.pc = .done) :
    s.returning = some io := by
  unfold System.returning
  rw [hio]
  dsimp only
  rw [hcall, hpc]

theorem returning_eq_some (h : s.returning = some io) : s.io = some io ∧ io.call = .loop ∧ io.pc = .done := by
  cases hio : s.io with
  | none =>
    rw [System.returning, hio] at h
    cases h
  | some io₀ =>
    by_cases hcall : io₀.call = .loop
    · by_cases hpc : io₀.pc = .done
      · rw [returning_of_done hio hcall hpc] at h
        cases h
        exact ⟨rfl, hcall, hpc⟩
      · rw [returning_of_pc hio hpc] at h
        cases h
    · rw [returning_of_call hio hcall] at h
      cases h

theorem GoesOn.of_call (hr : s.returning = none) (hio : s.io = some io) (hio' : s'.io = some io')
    (h : SameCall io io') : GoesOn s s' := by
  unfold GoesOn
  rw [hr]
  exact .inr ⟨io, io', hio, hio', h⟩

/-- The next step of a call changes no file for the program, and the call keeps its arguments. -/
theorem next_goesOn (hnd : 1 ≤ c.nvme.nd) (h : s.next c = .ok s') : SameFiles s s' ∧ GoesOn s s' := by
  obtain hio | ⟨io, hio⟩ := Option.eq_none_or_eq_some s.io
  · unfold System.next at h
    rw [hio] at h
    cases h
    have hr : s.returning = none := by rw [System.returning, hio]
    refine ⟨.rfl, ?_⟩
    unfold GoesOn
    rw [hr]
    exact .inl ⟨hio, hio⟩
  · -- a call that is still in a step of its loop, or in a call of the driver
    have hloop {io' : Io} (hpc : io.pc ≠ .done) (hio' : s'.io = some io') (hc : SameCall io io') : GoesOn s s' :=
      .of_call (returning_of_pc hio hpc) hio hio' hc
    have hcalls {call : LoopCall} {io' : Io} (hcall : io.call = call) (hne : call ≠ .loop)
        (hio' : s'.io = some io') (hc : SameCall io io') : GoesOn s s' :=
      .of_call (returning_of_call hio (by rwa [hcall])) hio hio' hc
    cases goes_next hnd hio h with
    | returns hcall hpc =>
      refine ⟨⟨rfl, rfl⟩, ?_⟩
      unfold GoesOn
      rw [returning_of_done hio hcall hpc]
      exact ⟨hio, rfl⟩
    | moves hcall hpc hl => exact ⟨⟨rfl, rfl⟩, hloop hpc rfl ⟨rfl, rfl, rfl, rfl⟩⟩
    | requests hcall hpc hl hon hd hcore => exact ⟨⟨rfl, rfl⟩, hloop hpc rfl ⟨rfl, rfl, rfl, rfl⟩⟩
    | checks hcall hpc hl => exact ⟨⟨rfl, rfl⟩, hloop hpc rfl ⟨rfl, rfl, rfl, rfl⟩⟩
    | rings hcall hbell => exact ⟨⟨rfl, rfl⟩, hcalls hcall (by simp) rfl ⟨rfl, rfl, rfl, rfl⟩⟩
    | inside hcall => exact ⟨⟨rfl, rfl⟩, hcalls hcall (by simp) hio ⟨rfl, rfl, rfl, rfl⟩⟩
    | finds hcall hdone => exact ⟨⟨rfl, rfl⟩, hcalls hcall (by simp) rfl ⟨rfl, rfl, rfl, rfl⟩⟩
    | retries hcall hdone => exact ⟨⟨rfl, rfl⟩, hcalls hcall (by simp) rfl ⟨rfl, rfl, rfl, rfl⟩⟩
    | enters hcall hdone => exact ⟨⟨rfl, rfl⟩, hcalls hcall (by simp) rfl ⟨rfl, rfl, rfl, rfl⟩⟩
    | leaves hcall hpc => exact ⟨⟨rfl, rfl⟩, hcalls hcall (by simp) rfl ⟨rfl, rfl, rfl, rfl⟩⟩
    | polls hcall hpc => exact ⟨⟨rfl, rfl⟩, hcalls hcall (by simp) hio ⟨rfl, rfl, rfl, rfl⟩⟩

end GoesOn

/-! ### The invariant -/

section Invariant

variable {names : CString → Prop} {c : IoConfig} {s : Program}

/-- A hooked descriptor is open for the kernel and has a slot to itself, open for a file. -/
structure HookTable (s : Program) : Prop where
  kernel : ∀ fd, 0 ≤ s.hookfds fd → s.kernel fd ≠ none
  opened : ∀ fd, 0 ≤ s.hookfds fd → ∃ f, s.sys.opened (s.hookfds fd).toNat = some f
  injective : ∀ fd fd', 0 ≤ s.hookfds fd → 0 ≤ s.hookfds fd' →
    (s.hookfds fd).toNat = (s.hookfds fd').toNat → fd = fd'

/-- `read_impl` or `write_impl` is in the call that `hook_function` made. -/
structure Serves (s : Program) (io : Io) (k : Pending) : Prop where
  pending : s.pending = some k
  hooked : 0 ≤ s.hookfds k.fd
  hookfd : (s.hookfds k.fd).toNat = io.hookfd
  pos : io.pos = s.callPos k.fd k.offset

/-- The invariant of a hooked process. -/
structure ProgramInv (names : CString → Prop) (c : IoConfig) (s : Program) : Prop where
  files : FileInv names c s.sys
  table : HookTable s
  idle : s.sys.io = none → s.pending = none
  serves : ∀ io, s.sys.io = some io → ∃ k, Serves s io k

theorem files_fds {fd : ℕ} {f : CString} (hh : 0 ≤ s.hookfds fd)
    (hf : s.sys.opened (s.hookfds fd).toNat = some f) : s.files.fds fd = some (f, s.position fd) := by
  change (if 0 ≤ s.hookfds fd then _ else _) = _
  rw [if_pos hh, hf]
  rfl

theorem files_fds_none {fd : ℕ} (hh : ¬ 0 ≤ s.hookfds fd) : s.files.fds fd = none := if_neg hh

theorem position_idle (hio : s.sys.io = none) (fd : ℕ) : s.position fd = s.curPos fd := by
  unfold Program.position
  rw [hio]

/-- What the program sees of a descriptor. -/
theorem files_fds_congr {t : Program} {fd : ℕ} (hh : t.hookfds fd = s.hookfds fd)
    (ho : 0 ≤ s.hookfds fd → t.sys.opened (s.hookfds fd).toNat = s.sys.opened (s.hookfds fd).toNat)
    (hp : t.position fd = s.position fd) : t.files.fds fd = s.files.fds fd := by
  by_cases h0 : 0 ≤ s.hookfds fd
  · change (if 0 ≤ t.hookfds fd then _ else _) = if 0 ≤ s.hookfds fd then _ else _
    rw [hh, if_pos h0, if_pos h0, ho h0, hp]
  · rw [files_fds_none h0, files_fds_none (by rwa [hh])]

/-- A file that is closed has no descriptor. -/
theorem ProgramInv.closed (h : ProgramInv names c s) {f : CString}
    (hclosed : ∀ fd < maxFiles, s.sys.opened fd ≠ some f) (d p : ℕ) : s.files.fds d ≠ some (f, p) := by
  intro hd
  by_cases h0 : 0 ≤ s.hookfds d
  · obtain ⟨g, hg⟩ := h.table.opened d h0
    rw [files_fds h0 hg] at hd
    cases hd
    exact hclosed _ (h.files.common.dir.opened _ _ hg).1 hg
  · rw [files_fds_none h0] at hd
    cases hd

/-- The kernel opens or closes descriptors that are not hooked. -/
theorem ProgramInv.setKernel (h : ProgramInv names c s) {kernel : ℕ → Option Origin}
    (hk : ∀ fd, 0 ≤ s.hookfds fd → kernel fd ≠ none) : ProgramInv names c { s with kernel := kernel } where
  files := h.files
  table := ⟨hk, h.table.opened, h.table.injective⟩
  idle := h.idle
  serves io hio := by
    obtain ⟨k, hk⟩ := h.serves io hio
    exact ⟨k, hk.pending, hk.hooked, hk.hookfd, hk.pos⟩

/-- The drives and the memory of the program change. -/
theorem ProgramInv.setDriver (h : ProgramInv names c s) {S : Driver}
    (hf : FileInv names c { s.sys with driver := S }) :
    ProgramInv names c { s with sys := { s.sys with driver := S } } where
  files := hf
  table := ⟨h.table.kernel, h.table.opened, h.table.injective⟩
  idle := h.idle
  serves io hio := by
    obtain ⟨k, hk⟩ := h.serves io hio
    exact ⟨k, hk.pending, hk.hooked, hk.hookfd, hk.pos⟩

end Invariant

/-! ### Opening and closing -/

section OpenClose

variable {names : CString → Prop} {cfg : Config} {c : IoConfig} {s : Program}

/-- Slot `i` is opened for `filename` as descriptor `fd`. -/
def Program.bind (s : Program) (filename : Path) (fd i : ℕ) (fs : Fs numBlocks) : Program :=
  { s with
    sys := { s.sys with fs := fs, opened := Function.update s.sys.opened i (some filename.chars) }
    kernel := Function.update s.kernel fd (some (.openat filename))
    hookfds := Function.update s.hookfds fd (i : ℤ)
    curPos := Function.update s.curPos fd 0 }

/-- Descriptor `fd` is closed with its slot. -/
def Program.unbind (s : Program) (fd : ℕ) : Program :=
  { s with
    sys := s.sys.closeFile (s.hookfds fd).toNat
    kernel := Function.update s.kernel fd none
    hookfds := Function.update s.hookfds fd notUsedFd }

theorem openat_bind {filename : Path} {fd i : ℕ} {fs : Fs numBlocks}
    (hh : isHookedFilename cfg filename = true) (hfd : fd < maxHookfd)
    (ho : OpenResult s.sys.fs filename.chars fs i) :
    s.openat cfg filename fd = .ok (s.bind filename fd i fs) := by
  have hstep := hookOpenat_opened (s := s.proc) hh hfd ho
  have hslot : (((s.proc.kernelOpen (.openat filename) fd).setHook fd i 0 fs).hookfds
      (fd : ℤ).toNat).toNat = i := by
    rw [Int.toNat_natCast, setHook_hookfds_self, Int.toNat_natCast]
  rw [Program.openat, hstep, Outcome.map_ok, if_pos hh, hslot]
  simp only [Program.bind, Program.withProc, Program.setOpened, Process.setHook, Process.kernelOpen,
    if_pos (Int.natCast_nonneg fd), Int.toNat_natCast, Program.proc]

theorem close_unbind {fd : ℕ} (hfd : InTable fd) (h0 : 0 ≤ s.hookfds fd) :
    s.close fd = .ok (s.unbind fd) := by
  have h0' : 0 ≤ s.proc.hookfds (fd : ℤ).toNat := h0
  have h0'' : 0 ≤ s.hookfds (fd : ℤ).toNat := h0
  rw [Program.close, hookClose, if_pos hfd, if_pos h0', Outcome.map_ok, if_pos h0'']
  simp only [Program.unbind, Program.withProc, Program.setOpened, Process.setHook, Process.kernelClose,
    if_pos (Int.natCast_nonneg fd), Int.toNat_natCast, Program.proc, Function.update_eq_self,
    System.closeFile]

/-- A slot that is not open is the slot of no descriptor. -/
theorem HookTable.slot_ne (h : HookTable s) {i d : ℕ} (hnone : s.sys.opened i = none)
    (h0 : 0 ≤ s.hookfds d) : (s.hookfds d).toNat ≠ i := by
  intro he
  obtain ⟨g, hg⟩ := h.opened d h0
  rw [he, hnone] at hg
  cases hg

theorem bind_hookfds {filename : Path} {fd i d : ℕ} {fs : Fs numBlocks} :
    (s.bind filename fd i fs).hookfds d = if d = fd then (i : ℤ) else s.hookfds d :=
  Function.update_apply _ _ _ _

theorem unbind_hookfds {fd d : ℕ} :
    (s.unbind fd).hookfds d = if d = fd then notUsedFd else s.hookfds d :=
  Function.update_apply _ _ _ _

/-- The table with a new descriptor. -/
theorem HookTable.bind (h : HookTable s) {filename : Path} {fd i : ℕ} {fs : Fs numBlocks}
    (hnone : s.sys.opened i = none) : HookTable (s.bind filename fd i fs) where
  kernel d h0 := by
    rw [bind_hookfds] at h0
    change Function.update s.kernel fd (some (.openat filename)) d ≠ none
    by_cases hd : d = fd
    · rw [hd, Function.update_self]
      exact Option.some_ne_none _
    · rw [if_neg hd] at h0
      rw [Function.update_of_ne hd]
      exact h.kernel d h0
  opened d h0 := by
    rw [bind_hookfds] at h0 ⊢
    change ∃ f, Function.update s.sys.opened i (some filename.chars) _ = some f
    by_cases hd : d = fd
    · rw [if_pos hd, Int.toNat_natCast, Function.update_self]
      exact ⟨_, rfl⟩
    · rw [if_neg hd] at h0 ⊢
      rw [Function.update_of_ne (h.slot_ne hnone h0)]
      exact h.opened d h0
  injective d d' h0 h0' he := by
    rw [bind_hookfds] at h0 h0' he
    rw [bind_hookfds] at he
    by_cases hd : d = fd
    · by_cases hd' : d' = fd
      · rw [hd, hd']
      · rw [if_neg hd'] at h0' he
        rw [if_pos hd, Int.toNat_natCast] at he
        exact absurd he.symm (h.slot_ne hnone h0')
    · rw [if_neg hd] at h0 he
      by_cases hd' : d' = fd
      · rw [if_pos hd', Int.toNat_natCast] at he
        exact absurd he (h.slot_ne hnone h0)
      · rw [if_neg hd'] at h0' he
        exact h.injective d d' h0 h0' he

/-- The table without a descriptor. -/
theorem HookTable.unbind (h : HookTable s) {fd : ℕ} (hfd : 0 ≤ s.hookfds fd) : HookTable (s.unbind fd) := by
  have hother {d : ℕ} (h0 : 0 ≤ (s.unbind fd).hookfds d) :
      d ≠ fd ∧ (s.unbind fd).hookfds d = s.hookfds d ∧ 0 ≤ s.hookfds d := by
    rw [unbind_hookfds] at h0 ⊢
    by_cases hd : d = fd
    · rw [if_pos hd, notUsedFd] at h0
      exact absurd h0 (by decide)
    · rw [if_neg hd] at h0 ⊢
      exact ⟨hd, rfl, h0⟩
  refine ⟨fun d h0 => ?_, fun d h0 => ?_, fun d d' h0 h0' he => ?_⟩
  · obtain ⟨hd, -, h0⟩ := hother h0
    change Function.update s.kernel fd none d ≠ none
    rw [Function.update_of_ne hd]
    exact h.kernel d h0
  · obtain ⟨hd, heq, h0⟩ := hother h0
    rw [heq]
    change ∃ f, Function.update s.sys.opened (s.hookfds fd).toNat none _ = some f
    rw [Function.update_of_ne fun he => hd (h.injective d fd h0 hfd he)]
    exact h.opened d h0
  · obtain ⟨-, heq, h0⟩ := hother h0
    obtain ⟨-, heq', h0'⟩ := hother h0'
    rw [heq, heq'] at he
    exact h.injective d d' h0 h0' he

/-- The files after a file was opened. -/
theorem HookTable.files_bind (h : HookTable s) (hio : s.sys.io = none) {filename : Path} {fd i : ℕ}
    {fs : Fs numBlocks} (hnone : s.sys.opened i = none) :
    (s.bind filename fd i fs).files = s.files.setFd fd filename.chars 0 := by
  have hio' : (s.bind filename fd i fs).sys.io = none := hio
  have hfds : (s.bind filename fd i fs).files.fds =
      Function.update s.files.fds fd (some (filename.chars, 0)) := by
    funext d
    by_cases hd : d = fd
    · have hslot : (s.bind filename fd i fs).hookfds d = i := by rw [bind_hookfds, if_pos hd]
      have hopen : (s.bind filename fd i fs).sys.opened i = some filename.chars :=
        Function.update_self _ _ _
      have hpos : (s.bind filename fd i fs).curPos fd = 0 := Function.update_self _ _ _
      rw [files_fds (f := filename.chars) (by rw [hslot]; exact Int.natCast_nonneg i)
        (by rw [hslot, Int.toNat_natCast, hopen]), position_idle hio', hd, hpos, Function.update_self]
    · rw [Function.update_of_ne hd]
      refine files_fds_congr (by rw [bind_hookfds, if_neg hd]) (fun h0 => ?_) ?_
      · exact Function.update_of_ne (h.slot_ne hnone h0) _ _
      · rw [position_idle hio', position_idle hio]
        exact Function.update_of_ne hd _ _
  exact congrArg (Files.mk s.sys.content) hfds

/-- The files after a descriptor was closed. -/
theorem HookTable.files_unbind (h : HookTable s) (hio : s.sys.io = none) {fd : ℕ}
    (hfd : 0 ≤ s.hookfds fd) :
    (s.unbind fd).files = { s.files with fds := Function.update s.files.fds fd none } := by
  have hio' : (s.unbind fd).sys.io = none := hio
  have hfds : (s.unbind fd).files.fds = Function.update s.files.fds fd none := by
    funext d
    by_cases hd : d = fd
    · rw [hd, Function.update_self, files_fds_none (by rw [unbind_hookfds, if_pos rfl]; decide)]
    · rw [Function.update_of_ne hd]
      refine files_fds_congr (by rw [unbind_hookfds, if_neg hd]) (fun h0 => ?_) ?_
      · exact Function.update_of_ne (fun he => hd (h.injective d fd h0 hfd he)) _ _
      · rw [position_idle hio', position_idle hio]
        rfl
  exact congrArg (Files.mk s.sys.content) hfds

/-- Between two calls nothing is in progress. -/
theorem ProgramInv.of_quiet {t : Program} (h : ProgramInv names c s) (hio : s.sys.io = none)
    (hio' : t.sys.io = none) (hpend : t.pending = s.pending) (hfiles : FileInv names c t.sys)
    (htable : HookTable t) : ProgramInv names c t where
  files := hfiles
  table := htable
  idle _ := hpend.trans (h.idle hio)
  serves io hs := by
    rw [hio'] at hs
    cases hs

/-- `hook_openat`. -/
theorem ProgramInv.openat (h : ProgramInv names c s) (hn : Distinguished names) (hv : c.Valid)
    {filename : Path} {ret : ℤ} (hA : (ProgramStep.openat filename ret).Admissible names cfg c s) :
    ∃ s', s.openat cfg filename ret = .ok s' ∧ ProgramInv names c s' ∧
      Moves Files.Step ((ProgramStep.openat filename ret).event cfg s) s.files s'.files := by
  obtain ⟨hfree, hhook⟩ := hA
  by_cases hh : isHookedFilename cfg filename = true
  · obtain ⟨⟨h0, hlt⟩, hq, hname, hclosed, hcan⟩ := hhook hh
    have hq := hq trivial
    lift ret to ℕ using h0
    have hnew : ¬ 0 ≤ s.hookfds ret := fun h0 => h.table.kernel ret h0 (hfree (Int.natCast_nonneg _))
    obtain ⟨fs, i, hopen⟩ := myfsOpen_isSome.mpr hcan
    have ho := myfsOpen_eq_some.mp hopen
    obtain ⟨-, -, hnone, -⟩ := h.files.common.dir.open_ hn hname ho fun d hd =>
      hclosed d (h.files.common.dir.opened d _ hd).1 hd
    obtain ⟨sys, hsys, hfiles⟩ := h.files.openFile hn hv hq hname hclosed hcan
    rw [System.openFile, hopen] at hsys
    cases hsys
    refine ⟨_, openat_bind hh (by omega) ho, h.of_quiet hq.1 hq.1 rfl hfiles (h.table.bind hnone), ?_⟩
    rw [ProgramStep.event, if_pos hh, h.table.files_bind hq.1 hnone, Int.toNat_natCast]
    exact .openat (files_fds_none hnew) (h.closed hclosed)
  · have hev : (ProgramStep.openat filename ret).event cfg s = none := if_neg hh
    rw [hev, Program.openat, hookOpenat, if_neg hh, Outcome.map_ok, if_neg hh]
    have hproc : s.withProc (s.proc.kernelOpen (.openat filename) ret) =
        { s with kernel := (s.proc.kernelOpen (.openat filename) ret).kernel } := by
      unfold Process.kernelOpen
      split_ifs <;> rfl
    rw [hproc]
    refine ⟨_, rfl, h.setKernel fun fd h0 => ?_, rfl⟩
    have hkernel := h.table.kernel fd h0
    by_cases hd : (fd : ℤ) = ret
    · rw [← hd, kernelOpen_self]
      exact Option.some_ne_none _
    · rwa [kernelOpen_of_ne _ _ hd]

/-- `SYS_close`. -/
theorem ProgramInv.close (h : ProgramInv names c s) (hv : c.Valid) {fd : ℤ}
    (hA : (ProgramStep.close fd).Admissible names cfg c s) :
    ∃ s', s.close fd = .ok s' ∧ ProgramInv names c s' ∧
      Moves Files.Step ((ProgramStep.close fd).event cfg s) s.files s'.files := by
  obtain ⟨hin, hq⟩ := hA
  obtain ⟨h0, hlt⟩ := hin
  lift fd to ℕ using h0
  rw [Int.toNat_natCast] at hq
  by_cases hh : 0 ≤ s.hookfds fd
  · have hq := hq hh
    obtain ⟨f, hf⟩ := h.table.opened fd hh
    have hopen : s.sys.opened (s.hookfds fd).toNat ≠ none := by
      rw [hf]
      exact Option.some_ne_none _
    have hfiles := h.files.closeFile hv hq hopen
    refine ⟨_, close_unbind ⟨Int.natCast_nonneg _, hlt⟩ hh,
      h.of_quiet hq.1 hq.1 rfl hfiles (h.table.unbind hh), ?_⟩
    rw [ProgramStep.event, Int.toNat_natCast, if_pos hh, h.table.files_unbind hq.1 hh]
    exact .close (files_fds hh hf)
  · have hev : (ProgramStep.close fd).event cfg s = none := if_neg hh
    have hin : InTable (fd : ℤ) := ⟨Int.natCast_nonneg _, hlt⟩
    have hh' : ¬ 0 ≤ s.proc.hookfds (fd : ℤ).toNat := hh
    have hh'' : ¬ 0 ≤ s.hookfds (fd : ℤ).toNat := hh
    rw [hev, Program.close, hookClose, if_pos hin, if_neg hh', Outcome.map_ok, if_neg hh'']
    have hproc : s.withProc (s.proc.kernelClose fd) = { s with kernel := (s.proc.kernelClose fd).kernel } := by
      unfold Process.kernelClose
      split_ifs <;> rfl
    rw [hproc]
    refine ⟨_, rfl, h.setKernel fun d h0 => ?_, rfl⟩
    have hd : (d : ℤ) ≠ fd := by
      intro hd
      rw [Int.natCast_inj.mp hd] at h0
      exact hh h0
    rw [kernelClose_of_ne _ hd]
    exact h.table.kernel d h0

end OpenClose

/-! ### Reading and writing -/

section ReadWrite

variable {names : CString → Prop} {cfg : Config} {c : IoConfig} {s : Program}

/-- `unlink`. -/
theorem ProgramInv.unlink (h : ProgramInv names c s) (hn : Distinguished names) (hv : c.Valid)
    {pathname : Path} (hA : (ProgramStep.unlink pathname).Admissible names cfg c s) :
    ProgramInv names c (s.unlink pathname) ∧
      Moves Files.Step ((ProgramStep.unlink pathname).event cfg s) s.files (s.unlink pathname).files := by
  obtain ⟨hq, hname, hclosed⟩ := hA
  have hq := hq trivial
  have hfiles := h.files.unlinkFile hn hv hq hname hclosed
  refine ⟨h.of_quiet hq.1 hq.1 rfl hfiles ⟨h.table.kernel, h.table.opened, h.table.injective⟩, ?_⟩
  exact .unlink (h.closed hclosed)

theorem byHookfd_of_hooked {fd : ℕ} (hin : InTable fd) (h0 : 0 ≤ s.hookfds fd) :
    byHookfd s.proc fd = some (.myfs (s.hookfds fd)) := by
  rw [byHookfd, if_pos hin]
  exact congrArg some (if_pos h0)

theorem byHookfd_of_not_hooked {fd : ℕ} (hin : InTable fd) (h0 : ¬ 0 ≤ s.hookfds fd) :
    byHookfd s.proc fd = some .kernel := by
  rw [byHookfd, if_pos hin]
  exact congrArg some (if_neg h0)

/-- `read_impl` or `write_impl` has begun. -/
structure Begins (s s' : System) (write : Bool) (hookfd len pos : ℕ) (io : Io) : Prop where
  call : s'.io = some io
  write : io.write = write
  hookfd : io.hookfd = hookfd
  len : io.len = len
  pos : io.pos = pos
  opened : s'.opened = s.opened

theorem readImpl_begins {t t' : System} {core hookfd len pos buf : ℕ}
    (h : t.readImpl core hookfd len pos buf = .ok t') :
    (∃ io, Begins t t' false hookfd len pos io) ∧ t'.content = t.content := by
  unfold System.readImpl at h
  by_cases hpos : pos % 512 = 0
  · rw [if_pos hpos] at h
    cases h
    exact ⟨⟨_, rfl, rfl, rfl, rfl, rfl, rfl⟩, rfl⟩
  · rw [if_neg hpos] at h
    cases h

theorem writeImpl_begins {t t' : System} {core hookfd len pos buf : ℕ} {f : CString}
    (hf : t.opened hookfd = some f) (h : t.writeImpl core hookfd len pos buf = .ok t') :
    (∃ io, Begins t t' true hookfd len pos io) ∧
      t'.content = Function.update t.content f (overlay (t.content f) pos len buf t.driver.user) := by
  unfold System.writeImpl at h
  by_cases hpos : pos % 512 = 0
  · rw [if_pos hpos, hf] at h
    cases h
    exact ⟨⟨_, rfl, rfl, rfl, rfl, rfl, rfl⟩, rfl⟩
  · rw [if_neg hpos] at h
    cases h

/-- The program after a call of a hooked descriptor has begun. -/
def Program.begin_ (s : Program) (sys : System) (fd : ℕ) (offset : Option ℕ) : Program :=
  { s with sys := sys, pending := some ⟨fd, offset⟩ }

variable {sys : System} {io : Io} {write : Bool} {fd len : ℕ} {offset : Option ℕ}

theorem ProgramInv.begin_ (h : ProgramInv names c s) (hfiles : FileInv names c sys) (h0 : 0 ≤ s.hookfds fd)
    (hb : Begins s.sys sys write (s.hookfds fd).toNat len (s.callPos fd offset) io) :
    ProgramInv names c (s.begin_ sys fd offset) where
  files := hfiles
  table := ⟨h.table.kernel, fun d hd => by
    change ∃ f, sys.opened _ = some f
    rw [hb.opened]
    exact h.table.opened d hd, h.table.injective⟩
  idle hn := by
    change sys.io = none at hn
    rw [hb.call] at hn
    cases hn
  serves io' hio' := by
    change sys.io = some io' at hio'
    rw [hb.call] at hio'
    cases hio'
    exact ⟨⟨fd, offset⟩, rfl, h0, hb.hookfd.symm, hb.pos⟩

/-- The position of a descriptor when a call has begun. -/
theorem position_begin {pos hookfd : ℕ} (hb : Begins s.sys sys write hookfd len pos io) (d : ℕ) :
    (s.begin_ sys fd offset).position d =
      if write = true ∧ fd = d then Files.after offset (s.curPos d) len else s.curPos d := by
  unfold Program.position Program.begin_
  dsimp only
  rw [hb.call]
  dsimp only
  rw [hb.write, hb.len]

/-- The files when a write has begun: it counts as done. -/
theorem files_write {pos hookfd : ℕ} {f : CString} (hidle : s.sys.io = none)
    (hb : Begins s.sys sys true hookfd len pos io) (h0 : 0 ≤ s.hookfds fd)
    (hf : s.sys.opened (s.hookfds fd).toNat = some f) :
    (s.begin_ sys fd offset).files =
      { s.files.setFd fd f (Files.after offset (s.curPos fd) len) with data := sys.content } := by
  have hopened : (s.begin_ sys fd offset).sys.opened = s.sys.opened := hb.opened
  refine Files.ext rfl (funext fun d => ?_)
  change _ = Function.update s.files.fds fd (some (f, Files.after offset (s.curPos fd) len)) d
  by_cases hd : d = fd
  · have hf' : (s.begin_ sys fd offset).sys.opened ((s.begin_ sys fd offset).hookfds fd).toNat = some f := by
      rw [hopened]
      exact hf
    rw [hd, Function.update_self, files_fds (s := s.begin_ sys fd offset) h0 hf', position_begin hb,
      if_pos ⟨rfl, rfl⟩]
  · rw [Function.update_of_ne hd]
    refine files_fds_congr rfl (fun _ => by rw [hopened]) ?_
    rw [position_begin hb, if_neg fun h => hd h.2.symm, position_idle hidle]

/-- The files when a read has begun: it has moved no position. -/
theorem files_read {pos hookfd : ℕ} (hidle : s.sys.io = none)
    (hb : Begins s.sys sys false hookfd len pos io) (hcontent : sys.content = s.sys.content) :
    (s.begin_ sys fd offset).files = s.files := by
  have hopened : (s.begin_ sys fd offset).sys.opened = s.sys.opened := hb.opened
  refine Files.ext hcontent (funext fun d => files_fds_congr rfl (fun _ => by rw [hopened]) ?_)
  rw [position_begin hb, if_neg fun h => Bool.false_ne_true h.1, position_idle hidle]

/-- `SYS_read` and `pread64`. -/
theorem ProgramInv.readCall (h : ProgramInv names c s) (hn : Distinguished names) (hv : c.Valid)
    {core count buf : ℕ} {fd : ℤ} {offset : Option ℕ}
    (hA : ProgramStep.IoAdmissible names c fd
      (fun slot => .readImpl core slot count (s.callPos fd.toNat offset) buf) s) :
    ∃ s', s.readCall core fd offset count buf = .ok s' ∧ ProgramInv names c s' ∧ s'.files = s.files := by
  obtain ⟨hin, hA⟩ := hA
  lift fd to ℕ using hin.1
  rw [Int.toNat_natCast] at hA
  by_cases h0 : 0 ≤ s.hookfds fd
  · have hA := hA h0
    obtain ⟨sys, hsys, hfiles⟩ := fileInv_step hn hv _ _ h.files hA
    obtain ⟨⟨io, hb⟩, hcontent⟩ := readImpl_begins hsys
    refine ⟨s.begin_ sys fd offset, ?_, h.begin_ hfiles h0 hb, files_read (hA.1 trivial).1 hb hcontent⟩
    rw [Program.readCall, byHookfd_of_hooked hin h0]
    dsimp only
    rw [Int.toNat_natCast]
    exact congrArg (Outcome.map _) hsys
  · refine ⟨s, ?_, h, rfl⟩
    rw [Program.readCall, byHookfd_of_not_hooked hin h0]

theorem bytesAt_length (user : ℕ → Byte) (buf len : ℕ) : (bytesAt user buf len).length = len := by
  rw [bytesAt, List.length_map, List.length_range]

theorem bytesAt_getElem? {user : ℕ → Byte} {buf len k : ℕ} (hk : k < len) :
    (bytesAt user buf len)[k]? = some (user (buf + k)) := by
  rw [bytesAt, List.getElem?_map, List.getElem?_range hk]
  rfl

theorem put_bytesAt (old : ℕ → Option Byte) (pos len buf : ℕ) (user : ℕ → Byte) :
    Files.put old pos (bytesAt user buf len) = overlay old pos len buf user := by
  funext x
  rw [Files.put, overlay, bytesAt_length]
  by_cases hx : pos ≤ x ∧ x < pos + len
  · rw [if_pos hx, if_pos hx, bytesAt_getElem? (by omega)]
  · rw [if_neg hx, if_neg hx]

/-- `SYS_write` and `pwrite64`. -/
theorem ProgramInv.writeCall (h : ProgramInv names c s) (hn : Distinguished names) (hv : c.Valid)
    {core len buf : ℕ} {fd : ℤ} {offset : Option ℕ}
    (hA : ProgramStep.IoAdmissible names c fd
      (fun slot => .writeImpl core slot len (s.callPos fd.toNat offset) buf) s) :
    ∃ s', s.writeCall core fd offset len buf = .ok s' ∧ ProgramInv names c s' ∧
      Moves Files.Step (ProgramStep.writeEvent fd offset len buf s) s.files s'.files := by
  obtain ⟨hin, hA⟩ := hA
  lift fd to ℕ using hin.1
  rw [Int.toNat_natCast] at hA
  by_cases h0 : 0 ≤ s.hookfds fd
  · have hA := hA h0
    have hidle := (hA.1 trivial).1
    obtain ⟨f, hf⟩ := h.table.opened fd h0
    obtain ⟨sys, hsys, hfiles⟩ := fileInv_step hn hv _ _ h.files hA
    obtain ⟨⟨io, hb⟩, hcontent⟩ := writeImpl_begins hf hsys
    refine ⟨s.begin_ sys fd offset, ?_, h.begin_ hfiles h0 hb, ?_⟩
    · rw [Program.writeCall, byHookfd_of_hooked hin h0]
      dsimp only
      rw [Int.toNat_natCast]
      exact congrArg (Outcome.map _) hsys
    · have hfd := files_fds h0 hf
      rw [position_idle hidle] at hfd
      have hwrite : Files.Step s.files (.write fd offset (bytesAt s.sys.driver.user buf len)) _ := .write hfd
      rw [bytesAt_length, put_bytesAt] at hwrite
      rw [ProgramStep.writeEvent, Int.toNat_natCast, if_pos h0, files_write hidle hb h0 hf, hcontent]
      exact hwrite
  · refine ⟨s, ?_, h, ?_⟩
    · rw [Program.writeCall, byHookfd_of_not_hooked hin h0]
    · rw [ProgramStep.writeEvent, Int.toNat_natCast, if_neg h0]
      rfl

end ReadWrite

/-! ### The step -/

section Step

variable {names : CString → Prop} {cfg : Config} {c : IoConfig} {s : Program}

/-- The position of a descriptor while a call is in progress. -/
theorem Serves.position {io : Io} {k : Pending} (h : Serves s io k) (hio : s.sys.io = some io) (d : ℕ) :
    s.position d =
      if io.write = true ∧ k.fd = d then Files.after k.offset (s.curPos d) io.len else s.curPos d := by
  unfold Program.position
  rw [hio, h.pending]

/-- The call goes on. -/
theorem ProgramInv.goesOn (h : ProgramInv names c s) {sys : System} (hfiles : FileInv names c sys)
    (hsame : SameFiles s.sys sys) (hcall : (s.sys.io = none ∧ sys.io = none) ∨
      ∃ io io', s.sys.io = some io ∧ sys.io = some io' ∧ SameCall io io') :
    ProgramInv names c { s with sys := sys } ∧ Program.files { s with sys := sys } = s.files := by
  have htable : HookTable { s with sys := sys } := ⟨h.table.kernel, fun d hd => by
    dsimp only
    rw [hsame.opened]
    exact h.table.opened d hd, h.table.injective⟩
  have hsees (hpos : ∀ d, Program.position { s with sys := sys } d = s.position d) :
      Program.files { s with sys := sys } = s.files :=
    Files.ext hsame.content
      (funext fun d => files_fds_congr rfl (fun _ => by dsimp only; rw [hsame.opened]) (hpos d))
  rcases hcall with ⟨hio, hio'⟩ | ⟨io, io', hio, hio', hc⟩
  · refine ⟨h.of_quiet hio hio' rfl hfiles htable, hsees fun d => ?_⟩
    rw [position_idle hio, position_idle hio']
  · obtain ⟨k, hk⟩ := h.serves io hio
    have hk' : Serves { s with sys := sys } io' k :=
      ⟨hk.pending, hk.hooked, hk.hookfd.trans hc.hookfd.symm, hc.pos.trans hk.pos⟩
    refine ⟨⟨hfiles, htable, fun hn => ?_, fun io'' hs => ?_⟩, hsees fun d => ?_⟩
    · exact absurd (hio'.symm.trans hn) (Option.some_ne_none _)
    · cases hio'.symm.trans hs
      exact ⟨k, hk'⟩
    · rw [hk'.position hio', hk.position hio, hc.write, hc.len]

/-- The program after a call has returned. -/
def Program.return_ (s : Program) (sys : System) (k : Pending) (len : ℕ) : Program :=
  { s with
    sys := sys
    curPos := Function.update s.curPos k.fd (Files.after k.offset (s.curPos k.fd) len)
    pending := none }

theorem return_curPos (sys : System) (k : Pending) (len d : ℕ) : (s.return_ sys k len).curPos d =
    if k.fd = d then Files.after k.offset (s.curPos d) len else s.curPos d := by
  change Function.update s.curPos k.fd _ d = _
  rw [Function.update_apply]
  by_cases hd : d = k.fd
  · rw [if_pos hd, if_pos hd.symm, hd]
  · rw [if_neg hd, if_neg (Ne.symm hd)]

/-- What a read returns is what the file holds. -/
theorem Serves.holds {io : Io} {k : Pending} {f : CString} (h : Serves s io k) (hback : s.sys.ReadBack)
    (hr : s.sys.returning = some io) (hw : io.write = false)
    (hf : s.sys.opened (s.hookfds k.fd).toNat = some f) :
    Files.Holds (s.sys.content f) (k.offset.getD (s.curPos k.fd))
      (bytesAt s.sys.driver.user io.buf io.len) := by
  obtain ⟨hio, -, hpc⟩ := returning_eq_some hr
  intro j b b' hb hdata
  have hj : j < io.len := by
    have hlt := (List.getElem?_eq_some_iff.mp hb).1
    rwa [bytesAt_length] at hlt
  rw [bytesAt_getElem? hj] at hb
  rw [h.hookfd] at hf
  have hpos : io.pos = k.offset.getD (s.curPos k.fd) := h.pos
  rw [← hpos] at hdata
  exact (Option.some.inj hb).symm.trans (hback io f hio hw hpc hf j hj b' hdata)

/-- The call returns. -/
theorem ProgramInv.returns (h : ProgramInv names c s) (hn : Distinguished names) {sys : System} {io : Io}
    (hfiles : FileInv names c sys) (hsame : SameFiles s.sys sys) (hr : s.sys.returning = some io)
    (hio' : sys.io = none) {k : Pending} (hk : Serves s io k) :
    ProgramInv names c (s.return_ sys k io.len) ∧
      Moves Files.Step (if io.write then none
        else some (.read k.fd k.offset (bytesAt s.sys.driver.user io.buf io.len)))
        s.files (s.return_ sys k io.len).files := by
  obtain ⟨hio, -, -⟩ := returning_eq_some hr
  have hopened : (s.return_ sys k io.len).sys.opened = s.sys.opened := hsame.opened
  have hidle : (s.return_ sys k io.len).sys.io = none := hio'
  constructor
  · refine ⟨hfiles, ⟨h.table.kernel, fun d hd => ?_, h.table.injective⟩, fun _ => rfl, fun io₁ hs => ?_⟩
    · rw [hopened]
      exact h.table.opened d hd
    · rw [hidle] at hs
      cases hs
  · obtain ⟨f, hf⟩ := h.table.opened k.fd hk.hooked
    cases hw : io.write with
    | true =>
      refine Files.ext hsame.content (funext fun d => files_fds_congr rfl (fun _ => by rw [hopened]) ?_)
      rw [position_idle hidle, return_curPos, hk.position hio, hw]
      simp only [true_and]
    | false =>
      have hfd := files_fds hk.hooked hf
      rw [hk.position hio, hw, if_neg fun h => Bool.false_ne_true h.1] at hfd
      have hread := Files.Step.read hfd (hk.holds (h.files.readBack hn) hr hw hf)
      rw [bytesAt_length] at hread
      have heq : (s.return_ sys k io.len).files =
          s.files.setFd k.fd f (Files.after k.offset (s.curPos k.fd) io.len) := by
        refine Files.ext hsame.content (funext fun d => ?_)
        change _ = Function.update s.files.fds k.fd (some (f, Files.after k.offset (s.curPos k.fd) io.len)) d
        by_cases hd : d = k.fd
        · have hf' : (s.return_ sys k io.len).sys.opened ((s.return_ sys k io.len).hookfds k.fd).toNat =
              some f := by
            rw [hopened]
            exact hf
          rw [hd, Function.update_self, files_fds (s := s.return_ sys k io.len) hk.hooked hf',
            position_idle hidle, return_curPos, if_pos rfl]
        · rw [Function.update_of_ne hd]
          refine files_fds_congr rfl (fun _ => by rw [hopened]) ?_
          rw [position_idle hidle, return_curPos, if_neg (Ne.symm hd), hk.position hio, hw,
            if_neg fun h => Bool.false_ne_true h.1]
      rw [heq]
      exact hread

/-- The call goes on or returns. -/
theorem ProgramInv.next (h : ProgramInv names c s) (hn : Distinguished names) (hv : c.Valid)
    (hA : FileStep.next.Admissible names c s.sys) :
    ∃ s', s.next c = .ok s' ∧ ProgramInv names c s' ∧
      Moves Files.Step (ProgramStep.next.event cfg s) s.files s'.files := by
  obtain ⟨sys, hsys, hfiles⟩ := fileInv_step hn hv _ _ h.files hA
  have hsys : s.sys.next c = .ok sys := hsys
  obtain ⟨hsame, hgo⟩ := next_goesOn hv.nvme.nd_pos hsys
  unfold GoesOn at hgo
  cases hr : s.sys.returning with
  | none =>
    rw [hr] at hgo
    obtain ⟨hinv, hsees⟩ := h.goesOn hfiles hsame hgo
    refine ⟨{ s with sys := sys }, ?_, hinv, ?_⟩
    · rw [Program.next, hsys, Outcome.map_ok, hr]
    · rw [ProgramStep.event, hr]
      exact hsees
  | some io =>
    rw [hr] at hgo
    obtain ⟨k, hk⟩ := h.serves io hgo.1
    obtain ⟨hinv, hmoves⟩ := h.returns hn hfiles hsame hr hgo.2 hk
    refine ⟨s.return_ sys k io.len, ?_, hinv, ?_⟩
    · rw [Program.next, hsys, Outcome.map_ok, hr, hk.pending]
      rfl
    · rw [ProgramStep.event, hr, hk.pending]
      exact hmoves

/-- A step of the process goes on, keeps the invariant and is a step of its files. -/
theorem programInv_step (hn : Distinguished names) (hv : c.Valid) (o : ProgramStep) (s : Program)
    (h : ProgramInv names c s) (hA : o.Admissible names cfg c s) :
    ∃ s', o.step cfg c s = .ok s' ∧ ProgramInv names c s' ∧
      Moves Files.Step (o.event cfg s) s.files s'.files := by
  cases o with
  | openat filename ret => exact h.openat hn hv hA
  | close fd => exact h.close hv hA
  | unlink pathname => exact ⟨_, rfl, h.unlink hn hv hA⟩
  | read core fd count buf => exact h.readCall hn hv hA
  | pread64 core fd count pos buf => exact h.readCall hn hv hA
  | write core fd len buf => exact h.writeCall hn hv hA
  | pwrite64 core fd len pos buf => exact h.writeCall hn hv hA
  | store user =>
    obtain ⟨sys, hsys, hfiles⟩ := fileInv_step hn hv _ _ h.files hA
    cases hsys
    exact ⟨_, rfl, h.setDriver hfiles, rfl⟩
  | next => exact h.next hn hv hA
  | exec did core i =>
    obtain ⟨sys, hsys, hfiles⟩ := fileInv_step hn hv _ _ h.files hA
    cases hsys
    exact ⟨_, rfl, h.setDriver hfiles, rfl⟩
  | post did core i x =>
    obtain ⟨sys, hsys, hfiles⟩ := fileInv_step hn hv _ _ h.files hA
    cases hsys
    exact ⟨_, rfl, h.setDriver hfiles, rfl⟩

/-- A process with its first descriptors. -/
theorem programInv_start (hv : c.Valid) (kernel : ℕ → Option Origin) {sb : Superblock numBlocks}
    (hdir : Directory names (myfsMount sb).sb fun _ => none) (disk : ℕ → ℕ → Byte) (user : ℕ → Byte) :
    ProgramInv names c (Program.start c kernel sb disk user) := by
  have hunused (fd : ℕ) : ¬ 0 ≤ (Program.start c kernel sb disk user).hookfds fd := by
    change ¬ 0 ≤ notUsedFd
    decide
  refine ⟨fileInv_start hv hdir disk user, ⟨fun fd h => ?_, fun fd h => ?_, fun fd fd' h _ _ => ?_⟩,
    fun _ => rfl, fun io hio => absurd hio (Option.some_ne_none io).symm⟩
  · exact absurd h (hunused fd)
  · exact absurd h (hunused fd)
  · exact absurd h (hunused fd)

end Step

/-! ### A run -/

/-- Write a sector and read it back. -/
def fileSteps : List ProgramStep :=
  .write 0 3 512 8192 :: List.replicate 8 .next ++ [.exec 0 0 0, .post 0 0 0 plainCqe] ++
    .pread64 0 3 512 0 20000 :: List.replicate 5 .next ++ [.exec 0 0 1, .post 0 0 1 plainCqe] ++
      List.replicate 16 .next

/-- The descriptors of a process that was just started. -/
def standardFds (fd : ℕ) : Option Origin := if fd < 3 then some .dup2 else none

/-- What the calls of the run did. -/
def fileEvents : List FileEvent :=
  [.write 3 none (List.replicate 512 7), .read 3 (some 0) (List.replicate 512 7)]

end Pthabt.Hook
