import Pthabt.Hook.FdTable
import Pthabt.Myfs.DeferredUnlink

/-! Isolation of two hooked files. A slot belongs to a name, and only the calls in progress on
it keep an unlink from releasing it, not the descriptors. So a descriptor of one path
writes into the file of another once its own slot was released and taken again. While
no slot is released that a descriptor or a write in progress uses, the slot of a
user bears the user's path, and slots of different paths share no block. -/

namespace Pthabt.Hook

open Lib Run Myfs

variable {N : ℕ}

/-- The process and the writes its ULTs are in: the path of the descriptor, and the slot. -/
structure Session (N : ℕ) where
  proc : Process N
  writing : ℕ → Option (CString × ℕ)

/-- The calls on two files. A write is its start, its block accesses and its end. -/
inductive FileCall where
  | openat (filename : Path) (ret : ℤ)
  | close (fd : ℤ)
  | unlink (pathname : Path)
  | writeBegin (u : ℕ) (fd : ℤ)
  | writeAccess (u offset : ℕ)
  | writeEnd (u : ℕ)

namespace Session

def withProc (s : Session N) (proc : Process N) : Session N := { s with proc := proc }

def withFs (s : Session N) (fs : Fs N) : Session N := s.withProc { s.proc with fs := fs }

def setWriting (s : Session N) (u : ℕ) (w : Option (CString × ℕ)) : Session N :=
  { s with writing := Function.update s.writing u w }

/-- `write_impl` up to its increment, through a descriptor of `path` with slot `i`. -/
def writeBegin (s : Session N) (u : ℕ) (path : CString) (i : ℕ) : Session N :=
  (s.withFs (myfsIncrementRef s.proc.fs i).1).setWriting u (some (path, i))

/-- One `myfs_get_lba` of `write_impl`. -/
def writeAccess (s : Session N) (i offset : ℕ) : Outcome (Session N) :=
  match myfsGetLba s.proc.fs.sb i offset true with
  | some (sb, some _) => .ok (s.withFs { s.proc.fs with sb := sb })
  | some (sb, none) => .abort (s.withFs { s.proc.fs with sb := sb })
  | none => .fault

/-- The decrement that ends `write_impl`. -/
def writeEnd (s : Session N) (u i : ℕ) : Session N :=
  (s.withFs (myfsDecrementRef s.proc.fs i)).setWriting u none

end Session

variable (cfg : Config)

def FileCall.step : FileCall → Session N → Outcome (Session N)
  | .openat filename ret, s => (hookOpenat cfg filename ret s.proc).map s.withProc
  | .close fd, s => (hookClose fd s.proc).map s.withProc
  | .unlink pathname, s => .ok (s.withProc (hookUnlink pathname s.proc))
  | .writeBegin u fd, s =>
    match s.proc.kernel fd.toNat with
    | some (.openat path) => .ok (s.writeBegin u path.chars (s.proc.hookfds fd.toNat).toNat)
    | _ => .ok s
  | .writeAccess u offset, s =>
    match s.writing u with
    | some (_, i) => s.writeAccess i offset
    | none => .ok s
  | .writeEnd u, s =>
    match s.writing u with
    | some (_, i) => .ok (s.writeEnd u i)
    | none => .ok s

/-- The calls name one of two hooked paths, and a write goes through a hooked descriptor. -/
def FileCall.Admissible (p q : CString) : FileCall → Session N → Prop
  | .openat filename ret, s =>
    isHookedFilename cfg filename = true ∧ (filename.chars = p ∨ filename.chars = q) ∧
      LowestFree s.proc ret
  | .close fd, _ => InTable fd
  | .unlink pathname, _ => pathname.chars = p ∨ pathname.chars = q
  | .writeBegin u fd, s => Hooked s.proc fd ∧ s.writing u = none
  | .writeAccess u _, s => s.writing u ≠ none
  | .writeEnd u, s => s.writing u ≠ none

/-! ### Isolation -/

/-- The descriptor was opened for the path `x`. -/
def DescriptorOf (s : Session N) (x : CString) (fd : ℕ) : Prop :=
  ∃ path, s.proc.kernel fd = some (.openat path) ∧ path.chars = x

/-- A write through a descriptor of `x` goes to slot `i`: it would now, or is in progress. -/
def WritesTo (s : Session N) (x : CString) (i : ℕ) : Prop :=
  (∃ fd call, DescriptorOf s x fd ∧ (call = .write ∨ call = .pwrite64) ∧
      route s.proc true call fd = some (.myfs i)) ∨
    ∃ u, s.writing u = some (x, i)

/-- A descriptor of `x` uses slot `i`, or opening `x` now would. -/
def OpensAt (s : Session N) (x : CString) (i : ℕ) : Prop :=
  (∃ fd < maxHookfd, DescriptorOf s x fd ∧ s.proc.hookfds fd = i) ∨
    ∃ fs, myfsOpen s.proc.fs x = some (fs, i)

/-- Writes through descriptors of `p` reach neither the slot nor the blocks of `q`. -/
def Isolated (p q : CString) (s : Session N) : Prop :=
  ∀ i k, WritesTo s p i → OpensAt s q k →
    i ≠ k ∧ ∀ j < maxBlocksPerFile, ∀ l < maxBlocksPerFile,
      (s.proc.fs.sb.file i).block j ≠ inactiveBlock →
        (s.proc.fs.sb.file i).block j ≠ (s.proc.fs.sb.file k).block l

/-- A descriptor or a write of `x` uses slot `i`. -/
def Uses (s : Session N) (x : CString) (i : ℕ) : Prop :=
  (∃ fd < maxHookfd, DescriptorOf s x fd ∧ s.proc.hookfds fd = i) ∨ ∃ u, s.writing u = some (x, i)

/-- An `openat` succeeds and finds the file or room for it, no unlink releases a slot in use, and
writes stay inside the block table and find a free block. -/
def FileCall.Kept : FileCall → Session N → Prop
  | .openat filename ret, s => 0 ≤ ret ∧ (ret < maxHookfd → CanOpen s.proc.fs.sb filename.chars)
  | .unlink pathname, s =>
    ∀ i < maxFiles, Released s.proc.fs pathname.chars i → ¬ ∃ x, Uses s x i
  | .writeAccess u offset, s =>
    ∀ x i, s.writing u = some (x, i) → iBlock offset < maxBlocksPerFile ∧
      ((s.proc.fs.sb.file i).block (iBlock offset) = inactiveBlock →
        s.proc.fs.sb.free.rp ≠ s.proc.fs.sb.free.wp)
  | _, _ => True

/-- Slot `i` bears a name that `x`, one of the two paths, matches. -/
def Bears (p q : CString) (sb : Superblock N) (x : CString) (i : ℕ) : Prop :=
  (x = p ∨ x = q) ∧ i < maxFiles ∧ x.IsPrefix (sb.file i).name

/-- Invariant of kept runs. -/
structure IsoInv (p q : CString) (s : Session N) : Prop where
  blocks : BlockInv s.proc.fs.sb
  bears : ∀ x i, Uses s x i → Bears p q s.proc.fs.sb x i

variable {cfg} {p q : CString}

theorem byHookfd_myfs {s : Process N} {fd : ℕ} {hookfd : ℤ}
    (h : byHookfd s fd = some (.myfs hookfd)) : fd < maxHookfd ∧ s.hookfds fd = hookfd := by
  unfold byHookfd at h
  rw [Int.toNat_natCast] at h
  split_ifs at h with hin h0
  · have hlt := hin.2
    simp only [Option.some.injEq, Route.myfs.injEq] at h
    exact ⟨by omega, h⟩
  · simp at h

theorem WritesTo.uses {s : Session N} {x : CString} {i : ℕ} (h : WritesTo s x i) : Uses s x i := by
  rcases h with ⟨fd, call, hd, hcall, hr⟩ | h
  · have hby : byHookfd s.proc fd = some (.myfs i) := by
      rcases hcall with rfl | rfl <;> exact hr
    obtain ⟨hlt, hi⟩ := byHookfd_myfs hby
    exact Or.inl ⟨fd, hlt, hd, hi⟩
  · exact Or.inr h

/-- Two paths, neither an initial segment of the other, do not match one name. -/
theorem not_both_prefixes (hpq : ¬ p.IsPrefix q) (hqp : ¬ q.IsPrefix p) {name : CString}
    (hp : p.IsPrefix name) : ¬ q.IsPrefix name := by
  intro hq
  rcases CString.isPrefix_or_isPrefix hp hq with h | h
  · exact hpq h
  · exact hqp h

theorem IsoInv.isolated (hpq : ¬ p.IsPrefix q) (hqp : ¬ q.IsPrefix p) {s : Session N}
    {a b : CString} (h : IsoInv a b s) : Isolated p q s := by
  intro i k hw ho
  obtain ⟨-, hi, hname⟩ := h.bears p i hw.uses
  have hpe : p ≠ CString.empty := fun he => hpq (he ▸ CString.empty_isPrefix q)
  have hk : k < maxFiles ∧ i ≠ k := by
    rcases ho with hd | ⟨fs, ho⟩
    · obtain ⟨-, hk, hq⟩ := h.bears q k (Or.inl hd)
      refine ⟨hk, ?_⟩
      rintro rfl
      exact not_both_prefixes hpq hqp hname hq
    · rcases myfsOpen_eq_some.mp ho with ⟨hm, -⟩ | ⟨-, he, -, -⟩
      · refine ⟨hm.1, ?_⟩
        rintro rfl
        exact not_both_prefixes hpq hqp hname ((nameMatches_iff _ _ _).mp hm.2.1)
      · refine ⟨he.1, ?_⟩
        rintro rfl
        rw [he.2.1] at hname
        exact CString.not_isPrefix_empty hpe hname
  refine ⟨hk.2, fun j hj l hl hne heq => ?_⟩
  exact hk.2 (h.blocks.mapped_inj hi hk.1 hj hl hne heq).1

/-! ### Single steps -/

theorem bears_congr {sb sb' : Superblock N} {x : CString} {i : ℕ}
    (h : (sb'.file i).name = (sb.file i).name) : Bears p q sb' x i ↔ Bears p q sb x i := by
  rw [Bears, Bears, h]

/-- A step that adds no user and keeps the names of the slots in use keeps the invariant. -/
theorem IsoInv.of_names {s t : Session N} (h : IsoInv p q s) (hb : BlockInv t.proc.fs.sb)
    (hu : ∀ x i, Uses t x i → Uses s x i)
    (hn : ∀ x i, Uses s x i → (t.proc.fs.sb.file i).name = (s.proc.fs.sb.file i).name) :
    IsoInv p q t :=
  ⟨hb, fun x i hx => (bears_congr (hn x i (hu x i hx))).mpr (h.bears x i (hu x i hx))⟩

/-- Users after the entry `fd` of both descriptor tables changed. -/
theorem Uses.of_entry {s : Session N} {proc : Process N} {fd : ℕ}
    (hk : ∀ k, k ≠ fd → proc.kernel k = s.proc.kernel k)
    (hh : ∀ k, k ≠ fd → proc.hookfds k = s.proc.hookfds k) {x : CString} {i : ℕ}
    (h : Uses (s.withProc proc) x i) :
    Uses s x i ∨ DescriptorOf (s.withProc proc) x fd ∧ proc.hookfds fd = i := by
  rcases h with ⟨k, hlt, hd, hi⟩ | h
  · by_cases he : k = fd
    · subst he
      exact Or.inr ⟨hd, hi⟩
    · obtain ⟨path, hpath, hx⟩ := hd
      refine Or.inl (Or.inl ⟨k, hlt, ⟨path, ?_, hx⟩, ?_⟩)
      · exact (hk k he).symm.trans hpath
      · exact (hh k he).symm.trans hi
  · exact Or.inl (Or.inr h)

/-- Opening a file leaves a matching name in its slot, and the names in use as they are. -/
theorem openResult_name {s t : Fs N} {filename : CString} {k : ℕ} (ho : OpenResult s filename t k) :
    k < maxFiles ∧ filename.IsPrefix (t.sb.file k).name ∧
      ∀ i, (s.sb.file i).name ≠ CString.empty → (t.sb.file i).name = (s.sb.file i).name := by
  rcases ho with ⟨hm, rfl⟩ | ⟨-, he, -, rfl⟩
  · exact ⟨hm.1, (nameMatches_iff _ _ _).mp hm.2.1, fun _ _ => rfl⟩
  · refine ⟨he.1, ?_, fun i hi => ?_⟩
    · rw [openNew_file, Function.update_self]
      exact CString.isPrefix_refl _
    · rw [openNew_file, Function.update_of_ne]
      rintro rfl
      exact hi he.2.1

theorem Bears.name_ne {sb : Superblock N} {x : CString} {i : ℕ} (h : Bears p q sb x i)
    (hp : p ≠ CString.empty) (hq : q ≠ CString.empty) : (sb.file i).name ≠ CString.empty := by
  obtain ⟨hx, -, hpre⟩ := h
  have hne : x ≠ CString.empty := by
    rcases hx with rfl | rfl
    · exact hp
    · exact hq
  intro he
  rw [he] at hpre
  exact CString.not_isPrefix_empty hne hpre

theorem isoInv_openat {s : Session N} (h : IsoInv p q s) (hp : p ≠ CString.empty)
    (hq : q ≠ CString.empty) {filename : Path} {ret : ℤ}
    (hA : FileCall.Admissible cfg p q (.openat filename ret) s)
    (hC : FileCall.Kept (.openat filename ret) s) :
    (FileCall.step cfg (.openat filename ret) s).Safe (IsoInv p q) := by
  obtain ⟨hh, hpath, -⟩ := hA
  obtain ⟨h0, hcan⟩ := hC
  obtain ⟨fd, rfl⟩ := Int.eq_ofNat_of_zero_le h0
  rw [FileCall.step, Outcome.safe_map, hookOpenat, if_pos hh, hookOpened_safe]
  refine fun hlt => ⟨h0, by rw [kernelOpen_fs]; exact hcan hlt, fun fs i ho => ?_⟩
  rw [kernelOpen_fs] at ho
  rw [Int.toNat_natCast]
  obtain ⟨hi, hmatch, hnames⟩ := openResult_name ho
  have hk : ∀ k, k ≠ fd → ((s.proc.kernelOpen (.openat filename) fd).setHook fd i 0 fs).kernel k =
      s.proc.kernel k := by
    intro k hk
    rw [setHook_kernel, kernelOpen_of_ne _ _ (by omega)]
  have hf : ∀ k, k ≠ fd → ((s.proc.kernelOpen (.openat filename) fd).setHook fd i 0 fs).hookfds k =
      s.proc.hookfds k := by
    intro k hk
    rw [setHook_hookfds_of_ne _ _ _ _ hk, kernelOpen_hookfds]
  refine ⟨h.blocks.openResult ho, fun x k hx => ?_⟩
  rcases Uses.of_entry hk hf hx with hx | ⟨⟨path, hpath', rfl⟩, hi'⟩
  · have hb := h.bears x k hx
    exact (bears_congr (hnames k (hb.name_ne hp hq))).mpr hb
  · rw [setHook_hookfds_self, Int.natCast_inj] at hi'
    have hself := (kernelOpen_self s.proc (.openat filename) fd).symm.trans hpath'
    rw [Option.some.injEq, Origin.openat.injEq] at hself
    subst hself hi'
    exact ⟨hpath, hi, hmatch⟩

/-- A closed descriptor uses no slot. -/
theorem Uses.of_close {s : Session N} {proc : Process N} {fd : ℕ}
    (hk : proc.kernel = s.proc.kernel) (hh : ∀ k, k ≠ fd → proc.hookfds k = s.proc.hookfds k)
    {x : CString} {i : ℕ} (h : Uses (s.withProc (proc.kernelClose fd)) x i) : Uses s x i := by
  have hk' : ∀ k, k ≠ fd → (proc.kernelClose fd).kernel k = s.proc.kernel k := by
    intro k hne
    rw [kernelClose_of_ne _ (by omega), hk]
  have hh' : ∀ k, k ≠ fd → (proc.kernelClose fd).hookfds k = s.proc.hookfds k := by
    intro k hne
    rw [kernelClose_hookfds, hh k hne]
  rcases Uses.of_entry hk' hh' h with h | ⟨⟨path, hpath, -⟩, -⟩
  · exact h
  · have hself := (kernelClose_self proc fd).symm.trans hpath
    cases hself

theorem isoInv_close {s : Session N} (h : IsoInv p q s) {fd : ℤ} (hin : InTable fd) :
    (FileCall.step cfg (.close fd) s).Safe (IsoInv p q) := by
  obtain ⟨k, rfl⟩ := Int.eq_ofNat_of_zero_le hin.1
  rw [FileCall.step, Outcome.safe_map, hookClose, if_pos hin, Int.toNat_natCast]
  have hset : ∀ j, j ≠ k → (s.proc.setHook k notUsedFd (s.proc.curPos k)
      (myfsClose s.proc.fs (s.proc.hookfds k).toNat)).hookfds j = s.proc.hookfds j :=
    fun j hj => setHook_hookfds_of_ne _ _ _ _ hj
  split_ifs with hh
  · have hsb : ((s.proc.setHook k notUsedFd (s.proc.curPos k)
        (myfsClose s.proc.fs (s.proc.hookfds k).toNat)).kernelClose k).fs.sb = s.proc.fs.sb := by
      rw [kernelClose_fs]
      rfl
    refine h.of_names ?_ (fun x i hx => Uses.of_close (setHook_kernel _ _ _ _ _) hset hx)
      fun _ i _ => congrArg (fun sb : Superblock N => (sb.file i).name) hsb
    exact hsb.symm ▸ h.blocks
  · have hsb : (s.proc.kernelClose k).fs.sb = s.proc.fs.sb := by rw [kernelClose_fs]
    refine h.of_names ?_ (fun x i hx => Uses.of_close rfl (fun _ _ => rfl) hx)
      fun _ i _ => congrArg (fun sb : Superblock N => (sb.file i).name) hsb
    exact hsb.symm ▸ h.blocks

theorem isoInv_unlink {s : Session N} (h : IsoInv p q s) {pathname : Path}
    (hC : FileCall.Kept (.unlink pathname) s) :
    (FileCall.step cfg (.unlink pathname) s).Safe (IsoInv p q) := by
  refine h.of_names (h.blocks.myfsUnlink pathname.chars) (fun x i hx => hx) fun x i hx => ?_
  have hi := (h.bears x i hx).2.1
  change ((myfsUnlink s.proc.fs pathname.chars).sb.file i).name = _
  rw [myfsUnlink_file _ _ hi, if_neg fun hr => hC i hi hr ⟨x, hx⟩]

/-- The users after the writes of ULT `u` changed. -/
theorem Uses.of_setWriting {s : Session N} {u : ℕ} {w : Option (CString × ℕ)} {x : CString} {i : ℕ}
    (h : Uses (s.setWriting u w) x i) : Uses s x i ∨ w = some (x, i) := by
  rcases h with h | ⟨v, hv⟩
  · exact Or.inl (Or.inl h)
  · by_cases he : v = u
    · subst he
      exact Or.inr (by simpa [Session.setWriting] using hv)
    · exact Or.inl (Or.inr ⟨v, by simpa [Session.setWriting, he] using hv⟩)

theorem isoInv_writeBegin {s : Session N} (h : IsoInv p q s) {u : ℕ} {fd : ℤ}
    (hfd : Hooked s.proc fd) : (FileCall.step cfg (.writeBegin u fd) s).Safe (IsoInv p q) := by
  obtain ⟨hin, hh⟩ := hfd
  obtain ⟨k, rfl⟩ := Int.eq_ofNat_of_zero_le hin.1
  have hlt := hin.2
  rw [FileCall.step, Int.toNat_natCast]
  rw [Int.toNat_natCast] at hh
  cases hk : s.proc.kernel k with
  | none => exact h
  | some o =>
    cases o with
    | openat path =>
      have hsb : (myfsIncrementRef s.proc.fs (s.proc.hookfds k).toNat).1.sb = s.proc.fs.sb := by
        unfold myfsIncrementRef
        split_ifs <;> rfl
      have hold : Uses s path.chars (s.proc.hookfds k).toNat :=
        Or.inl ⟨k, by omega, ⟨path, hk, rfl⟩, (Int.toNat_of_nonneg hh).symm⟩
      refine h.of_names (hsb.symm ▸ h.blocks) (fun x i hx => ?_)
        fun _ i _ => congrArg (fun sb : Superblock N => (sb.file i).name) hsb
      rcases Uses.of_setWriting hx with hx | hx
      · exact hx
      · simp only [Option.some.injEq, Prod.mk.injEq] at hx
        obtain ⟨rfl, rfl⟩ := hx
        exact hold
    | _ => exact h

theorem isoInv_writeAccess {s : Session N} (h : IsoInv p q s) {u offset : ℕ}
    (hC : FileCall.Kept (.writeAccess u offset) s) :
    (FileCall.step cfg (.writeAccess u offset) s).Safe (IsoInv p q) := by
  rw [FileCall.step]
  cases hw : s.writing u with
  | none => exact h
  | some w =>
    obtain ⟨x, i⟩ := w
    obtain ⟨hb, hring⟩ := hC x i hw
    have hi := (h.bears x i (Or.inr ⟨u, hw⟩)).2.1
    dsimp only
    rw [Session.writeAccess, myfsGetLba_write _ _ hb]
    split_ifs with hm
    · trivial
    · refine h.of_names (h.blocks.mapBlock hi hb hring hm) (fun x i hx => hx) fun _ k _ => ?_
      exact getLba_name (myfsGetLba_write s.proc.fs.sb i hb) k

theorem isoInv_writeEnd {s : Session N} (h : IsoInv p q s) {u : ℕ} :
    (FileCall.step cfg (.writeEnd u) s).Safe (IsoInv p q) := by
  rw [FileCall.step]
  cases hw : s.writing u with
  | none => exact h
  | some w =>
    obtain ⟨x, i⟩ := w
    have hsb := decrementRef_sb s.proc.fs i
    refine h.of_names (hsb.symm ▸ h.blocks) (fun y k hx => ?_)
      fun _ i _ => congrArg (fun sb : Superblock N => (sb.file i).name) hsb
    rcases Uses.of_setWriting hx with hx | hx
    · exact hx
    · cases hx

/-- One kept step keeps the files of the two paths apart. -/
theorem isoInv_step (hp : p ≠ CString.empty) (hq : q ≠ CString.empty) (o : FileCall)
    (s : Session N) (h : IsoInv p q s) (hA : o.Admissible cfg p q s ∧ o.Kept s) :
    (o.step cfg s).Safe (IsoInv p q) := by
  obtain ⟨hA, hC⟩ := hA
  cases o with
  | openat filename ret => exact isoInv_openat h hp hq hA hC
  | close fd => exact isoInv_close h hA
  | unlink pathname => exact isoInv_unlink h hC
  | writeBegin u fd => exact isoInv_writeBegin h hA.1
  | writeAccess u offset => exact isoInv_writeAccess h hC
  | writeEnd u => exact isoInv_writeEnd h

/-! ### Runs -/

/-- A session of a process just initialised. -/
def Session.start (kernel : ℕ → Option Origin) (fs : Fs N) : Session N :=
  ⟨Process.init kernel fs, fun _ => none⟩

theorem start_isoInv (kernel : ℕ → Option Origin) {fs : Fs N} (h : BlockInv fs.sb) :
    IsoInv p q (Session.start kernel fs) := by
  refine ⟨h, fun x i hx => ?_⟩
  rcases hx with ⟨fd, -, -, hi⟩ | ⟨u, hu⟩
  · have hi : notUsedFd = i := hi
    simp only [notUsedFd] at hi
    omega
  · cases hu

/-! ### Two hooked files -/

section Examples

def nameB : CString := ⟨[98], by simp⟩

def pathB : Path := ⟨nameB, fun _ => 0⟩

def configAB : Config := ⟨[nameA, nameB], none⟩

theorem openat_step {s : Session N} {filename : Path} {fs : Fs N} {fd i : ℕ}
    (hh : isHookedFilename cfg filename = true) (hfd : fd < maxHookfd)
    (ho : OpenResult s.proc.fs filename.chars fs i) :
    FileCall.step cfg (.openat filename fd) s =
      .ok (s.withProc ((s.proc.kernelOpen (.openat filename) fd).setHook fd i 0 fs)) := by
  rw [FileCall.step, hookOpenat_opened hh hfd ho, Outcome.map_ok]

/-- A session with the standard descriptors and nothing hooked. -/
def startedSession : Session numBlocks := ⟨started, fun _ => none⟩

/-- The file `a` open as descriptor 3. -/
def sessionA : Session numBlocks := ⟨openedA, fun _ => none⟩

/-- The file `a` unlinked while descriptor 3 is open. -/
def unlinkedA : Session numBlocks := sessionA.withProc (hookUnlink pathA openedA)

/-- The file `b` then opened as descriptor 4. -/
def sessionB : Session numBlocks :=
  unlinkedA.withProc ((unlinkedA.proc.kernelOpen (.openat pathB) (4 : ℕ)).setHook 4 (0 : ℕ) 0
    (openNew unlinkedA.proc.fs nameB 0))

theorem three_lt : 3 < maxHookfd := by simp [maxHookfd]

theorem four_lt : 4 < maxHookfd := by simp [maxHookfd]

theorem openA_step :
    FileCall.step configAB (.openat pathA (3 : ℕ)) startedSession = .ok sessionA := by
  have h : FileCall.step configAB (.openat pathA (3 : ℕ)) startedSession = _ :=
    openat_step (by decide) three_lt (fresh_openResult numBlocks one_lt_numBlocks)
  rw [h]
  rfl

theorem unlinkedA_fs :
    unlinkedA.proc.fs = myfsUnlink (oneFile numBlocks one_lt_numBlocks) nameA := rfl

theorem unlinkedA_names {i : ℕ} (hi : i < maxFiles) :
    (unlinkedA.proc.fs.sb.file i).name = CString.empty := by
  rw [unlinkedA_fs, myfsUnlink_file _ _ hi]
  by_cases h0 : i = 0
  · subst h0
    rw [if_pos, clearFile_name]
    refine ⟨?_, oneFile_refCount _ _ 0⟩
    rw [nameMatches_iff, oneFile_file]
    exact CString.isPrefix_refl _
  · have hf : ((oneFile numBlocks one_lt_numBlocks).sb.file i).name = CString.empty := by
      rw [oneFile, openNew, Fs.setState_sb, Superblock.setFile_of_ne _ _ h0, fresh_file _ _ hi]
    split_ifs
    · exact clearFile_name _
    · exact hf

theorem openB_step :
    FileCall.step configAB (.openat pathB (4 : ℕ)) unlinkedA = .ok sessionB := by
  have ho : OpenResult unlinkedA.proc.fs nameB (openNew unlinkedA.proc.fs nameB 0) 0 :=
    myfsOpen_eq_some.mp (myfsOpen_first (fun i hi => unlinkedA_names hi) (by decide)
      (by simp [nameB, CString.strlen, maxNamelen]))
  rw [openat_step (by decide) four_lt ho, sessionB]

theorem unlinkA_step : FileCall.step configAB (.unlink pathA) sessionA = .ok unlinkedA := by
  have hproc : sessionA.proc = openedA := rfl
  rw [FileCall.step, hproc, unlinkedA]

theorem unlinkedA_kernel : unlinkedA.proc.kernel = openedA.kernel := rfl

theorem unlinkedA_hookfds : unlinkedA.proc.hookfds = openedA.hookfds := rfl

theorem openedA_hookfds : openedA.hookfds 3 = (0 : ℕ) := by
  rw [openedA, setHook_hookfds_self, Nat.cast_zero]

theorem sessionB_three :
    sessionB.proc.kernel 3 = some (.openat pathA) ∧ sessionB.proc.hookfds 3 = (0 : ℕ) := by
  have hne : ((3 : ℕ) : ℤ) ≠ (4 : ℕ) := by decide
  constructor
  · refine (kernelOpen_of_ne unlinkedA.proc (.openat pathB) hne).trans ?_
    rw [unlinkedA_kernel, openedA_kernel, if_pos rfl]
  · refine (setHook_hookfds_of_ne _ _ _ _ (by decide)).trans ?_
    rw [kernelOpen_hookfds, unlinkedA_hookfds, openedA_hookfds]

theorem sessionB_four :
    sessionB.proc.kernel 4 = some (.openat pathB) ∧ sessionB.proc.hookfds 4 = (0 : ℕ) :=
  ⟨kernelOpen_self unlinkedA.proc (.openat pathB) 4, setHook_hookfds_self _ _ _ _ _⟩

/-- Writes to either descriptor go to slot 0. -/
theorem sessionB_shared : WritesTo sessionB nameA 0 ∧ OpensAt sessionB nameB 0 := by
  obtain ⟨hk3, hh3⟩ := sessionB_three
  obtain ⟨hk4, hh4⟩ := sessionB_four
  constructor
  · refine Or.inl ⟨3, .write, ⟨pathA, hk3, rfl⟩, Or.inl rfl, ?_⟩
    have hin : InTable ((3 : ℕ) : ℤ) := three_inTable
    change byHookfd sessionB.proc (3 : ℕ) = _
    rw [byHookfd, if_pos hin, Int.toNat_natCast, hh3, if_pos (Int.natCast_nonneg 0)]
  · exact Or.inl ⟨4, four_lt, ⟨pathB, hk4, rfl⟩, hh4⟩

/-- Open `a`, unlink it while its descriptor is open, open `b`. -/
def reuseRun : List FileCall := [.openat pathA (3 : ℕ), .unlink pathA, .openat pathB (4 : ℕ)]

end Examples

end Pthabt.Hook
