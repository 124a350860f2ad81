import Pthabt.Myfs.DeferredUnlink

/-! `myfs_open` of a name after `myfs_unlink` of it. An unlink that finds calls in progress leaves
the name in the directory, so the open finds the old file and overwrites the flags that were to
release it. Beside that, the slot that the open takes must have no block left, and names that
begin with the unlinked one are not opened meanwhile. -/

namespace Pthabt.Myfs

open Lib Run

variable {N : ℕ}

def Blank (f : File) : Prop := ∀ j < maxBlocksPerFile, f.block j = inactiveBlock

/-- All mapped blocks are among the first `n_block`, which a release clears. -/
def TailFree (f : File) : Prop := ∀ j < maxBlocksPerFile, f.nBlock ≤ j → f.block j = inactiveBlock

/-- `myfs_open filename` would return a file without blocks, and would cancel no release. -/
def OpensNew (filename : CString) (s : Fs N) : Prop :=
  ∃ s' i, myfsOpen s filename = some (s', i) ∧ (s'.sb.file i).nBlock = 0 ∧ Blank (s'.sb.file i) ∧
    ∀ k < maxFiles, Pending s k → Pending s' k

/-- The name is not in the directory, and has a slot without blocks to take. -/
def Vacant (filename : CString) (sb : Superblock N) : Prop :=
  NoMatch sb filename ∧ filename.strlen < maxNamelen ∧ ∃ i, FirstEmpty sb i ∧ Blank (sb.file i)

/-- The calls, and whether the name was unlinked and not opened since. -/
structure Watched (N : ℕ) where
  io : Io N
  gone : Bool

/-- Whether `filename` is gone after the operation. -/
def IoOp.gone (filename : CString) (gone : Bool) : IoOp → Bool
  | .myfsUnlink f => gone || f = filename
  | .myfsOpen f => gone && f ≠ filename
  | _ => gone

def IoOp.watched (filename : CString) (o : IoOp) (w : Watched N) : Outcome (Watched N) :=
  (o.step w.io).map fun s => ⟨s, o.gone filename w.gone⟩

/-- Once the name was unlinked, the next open of it makes a new file. -/
def Gone (filename : CString) (w : Watched N) : Prop := w.gone = true → OpensNew filename w.io.fs

/-- The steps of a call come in order, and no other name that is opened begins with `filename`. -/
def IoOp.Unrelated (filename : CString) (o : IoOp) (w : Watched N) : Prop :=
  o.Admissible w.io ∧ ∀ f, o = .myfsOpen f → f = filename ∨ ¬ filename.IsPrefix f

/-- After the releases of the operation, slot `i` is the first one without a file. -/
def IoOp.NextEmpty (o : IoOp) (s : Io N) (i : ℕ) : Prop :=
  i < maxFiles ∧ ((s.fs.sb.file i).name = CString.empty ∨ o.Releases s i) ∧
    ∀ k < i, (s.fs.sb.file k).name ≠ CString.empty ∧ ¬ o.Releases s k

/-- After the releases of the operation, the first slot without a file has no block. -/
def IoOp.LeavesBlank (o : IoOp) (s : Io N) : Prop :=
  ∃ i, o.NextEmpty s i ∧ (o.Releases s i → TailFree (s.fs.sb.file i)) ∧
    (¬ o.Releases s i → Blank (s.fs.sb.file i))

/-- The name fits, and an unlink of it finds no call counted on the slots that it matches. While it
is gone, the first empty slot is without blocks: releases and other opens leave such a slot, and no
write through an old descriptor maps a block in it. -/
def IoOp.Clean (filename : CString) : IoOp → Watched N → Prop
  | .myfsUnlink f, w =>
    (f = filename → filename.strlen < maxNamelen ∧
      ∀ i < maxFiles, nameMatches w.io.fs.sb filename i → (w.io.fs.states i).refCount = 0) ∧
    (f = filename ∨ w.gone = true → (IoOp.myfsUnlink f).LeavesBlank w.io)
  | .testUnlinked k, w => w.gone = true → (IoOp.testUnlinked k).LeavesBlank w.io
  | .myfsOpen f, w => CanOpen w.io.fs.sb f ∧
    (w.gone = true → f ≠ filename → NoMatch w.io.fs.sb f → ∀ k, FirstEmpty w.io.fs.sb k →
      ∃ i < maxFiles, k < i ∧ (w.io.fs.sb.file i).name = CString.empty ∧ Blank (w.io.fs.sb.file i) ∧
        ∀ l, k < l → l < i → (w.io.fs.sb.file l).name ≠ CString.empty)
  | .myfsGetLba i _ write, w => w.gone = true → write = true → FirstEmpty w.io.fs.sb i →
    w.io.fs.sb.free.cell w.io.fs.sb.free.rp = inactiveBlock
  | _, _ => True

/-! ### What an open finds -/

section Open

variable {filename : CString} {s s' : Fs N} {i : ℕ}

/-- A vacant name is opened as a new file. -/
theorem Vacant.opensNew (h : Vacant filename s.sb) : OpensNew filename s := by
  obtain ⟨hno, hlen, i, hi, hblank⟩ := h
  have hopen : OpenResult s filename (openNew s filename i) i := .inr ⟨hno, hi, hlen, rfl⟩
  have hfile : (openNew s filename i).sb.file i = { s.sb.file i with name := filename, nBlock := 0 } := by
    rw [openNew_file, Function.update_self]
  refine ⟨_, i, myfsOpen_eq_some.mpr hopen, by rw [hfile], by rw [hfile]; exact hblank, fun k _ hp => ?_⟩
  have hk : k ≠ i := fun hk => hp.2 (hk ▸ hi.2.1)
  refine (pending_congr ?_ ?_).mpr hp
  · rw [openNew, Fs.setState_of_ne _ _ hk]
  · rw [openNew_file, Function.update_of_ne hk]

/-- A name that nothing matches makes a new file only when it is vacant. -/
theorem OpensNew.vacant (h : OpensNew filename s) (hno : NoMatch s.sb filename) :
    Vacant filename s.sb := by
  obtain ⟨s', i, hopen, -, hblank, -⟩ := h
  rcases myfsOpen_eq_some.mp hopen with ⟨hmatch, -⟩ | ⟨-, hi, hlen, rfl⟩
  · exact absurd hno hmatch.not_noMatch
  · rw [openNew_file, Function.update_self] at hblank
    exact ⟨hno, hlen, i, hi, hblank⟩

theorem openFound_file (s : Fs N) (i k : ℕ) : (openFound s i).sb.file k = s.sb.file k := rfl

theorem not_pending_openFound (s : Fs N) (i : ℕ) : ¬ Pending (openFound s i) i := by
  rintro ⟨hu, -⟩
  rw [openFound, Fs.setState_self] at hu
  exact absurd hu Bool.false_ne_true

/-- An open of a file that waits for its release cancels it. -/
theorem not_opensNew_of_pending (hi : FirstMatch s.sb filename i) (hp : Pending s i) :
    ¬ OpensNew filename s := by
  rintro ⟨s', k, hopen, -, -, hkeep⟩
  rcases myfsOpen_eq_some.mp hopen with ⟨hk, rfl⟩ | ⟨hno, -⟩
  · exact not_pending_openFound s k (hi.unique hk ▸ hkeep i hi.1 hp)
  · exact hi.not_noMatch hno

/-- A matched slot has a name. -/
theorem name_ne_of_match {sb : Superblock N} (hne : filename ≠ CString.empty)
    (h : nameMatches sb filename i) : (sb.file i).name ≠ CString.empty := by
  intro he
  rw [nameMatches_iff, he] at h
  exact CString.not_isPrefix_empty hne h

theorem noMatch_congr {sb sb' : Superblock N} (h : ∀ i < maxFiles, (sb'.file i).name = (sb.file i).name) :
    NoMatch sb' filename ↔ NoMatch sb filename := by
  refine forall₂_congr fun i hi => ?_
  rw [nameMatches_iff, nameMatches_iff, h i hi]

theorem firstEmpty_congr {sb sb' : Superblock N}
    (h : ∀ i < maxFiles, (sb'.file i).name = (sb.file i).name) :
    FirstEmpty sb' i ↔ FirstEmpty sb i := by
  constructor
  · rintro ⟨hi, he, hlt⟩
    exact ⟨hi, h i hi ▸ he, fun k hk => h k (hk.trans hi) ▸ hlt k hk⟩
  · rintro ⟨hi, he, hlt⟩
    exact ⟨hi, (h i hi).symm ▸ he, fun k hk => (h k (hk.trans hi)).symm ▸ hlt k hk⟩

end Open

/-! ### Releases -/

section Release

variable {filename : CString} {s : Io N} {o : IoOp} {s' : Fs N}

/-- A release clears the slot up to its number of blocks. -/
theorem blank_clearFile (f : File) : Blank (clearFile f) ↔ TailFree f := by
  refine forall₂_congr fun j _ => ?_
  change (if j < f.nBlock then inactiveBlock else f.block j) = inactiveBlock ↔ _
  split_ifs with hj
  · exact iff_of_true rfl fun hle => absurd hle (Nat.not_le_of_lt hj)
  · exact ⟨fun h _ => h, fun h => h (Nat.le_of_not_lt hj)⟩

/-- The slots after the releases of an operation. -/
def Releasing (o : IoOp) (s : Io N) (s' : Fs N) : Prop :=
  ∀ i < maxFiles, (o.Releases s i → s'.sb.file i = clearFile (s.fs.sb.file i)) ∧
    (¬ o.Releases s i → s'.sb.file i = s.fs.sb.file i)

theorem releasing_unlink (s : Io N) (f : CString) :
    Releasing (.myfsUnlink f) s (myfsUnlink s.fs f) := by
  intro i hi
  rw [myfsUnlink_file _ _ hi]
  exact ⟨fun h => if_pos h, fun h => if_neg h⟩

theorem releasing_testUnlinked (s : Io N) (k : ℕ) :
    Releasing (.testUnlinked k) s (s.testUnlinked k).fs := by
  intro i _
  rw [Io.testUnlinked]
  dsimp only
  split_ifs with hu
  · rw [myfsUnlinkFd, tryUnlink_file]
    constructor
    · rintro ⟨rfl, -, hr⟩
      exact if_pos ⟨rfl, hr⟩
    · intro hno
      refine if_neg ?_
      rintro ⟨hik, hr⟩
      refine hno ⟨hik, ?_, ?_⟩
      · rw [hik]
        exact hu
      · rw [hik]
        exact hr
  · refine ⟨?_, fun _ => rfl⟩
    rintro ⟨rfl, h, -⟩
    exact absurd h hu

theorem Releasing.name (h : Releasing o s s') {i : ℕ} (hi : i < maxFiles) :
    (s'.sb.file i).name = CString.empty ↔
      (s.fs.sb.file i).name = CString.empty ∨ o.Releases s i := by
  by_cases hr : o.Releases s i
  · rw [(h i hi).1 hr]
    exact iff_of_true rfl (.inr hr)
  · rw [(h i hi).2 hr, or_iff_left hr]

theorem Releasing.firstEmpty (h : Releasing o s s') (i : ℕ) :
    FirstEmpty s'.sb i ↔ o.NextEmpty s i := by
  refine and_congr_right fun hi => and_congr (h.name hi) (forall₂_congr fun k hk => ?_)
  rw [Ne, h.name (hk.trans hi), not_or]

theorem Releasing.blank (h : Releasing o s s') {i : ℕ} (hi : i < maxFiles) :
    Blank (s'.sb.file i) ↔ (o.Releases s i → TailFree (s.fs.sb.file i)) ∧
      (¬ o.Releases s i → Blank (s.fs.sb.file i)) := by
  by_cases hr : o.Releases s i
  · rw [(h i hi).1 hr, blank_clearFile]
    exact ⟨fun ht => ⟨fun _ => ht, fun hno => absurd hr hno⟩, fun ht => ht.1 hr⟩
  · rw [(h i hi).2 hr]
    exact ⟨fun hb => ⟨fun hyes => absurd hyes hr, fun _ => hb⟩, fun hb => hb.2 hr⟩

theorem Releasing.noMatch (h : Releasing o s s') (hne : filename ≠ CString.empty) :
    NoMatch s'.sb filename ↔ ∀ i < maxFiles, nameMatches s.fs.sb filename i → o.Releases s i := by
  refine forall₂_congr fun i hi => ?_
  by_cases hr : o.Releases s i
  · refine iff_of_true (fun hm => name_ne_of_match hne hm ?_) fun _ => hr
    rw [(h i hi).1 hr]
    rfl
  · rw [nameMatches_congr filename ((h i hi).2 hr)]
    exact ⟨fun hno hm => absurd hm hno, fun hall hm => hr (hall hm)⟩

theorem Releasing.vacant (h : Releasing o s s') (hne : filename ≠ CString.empty) :
    Vacant filename s'.sb ↔ (∀ i < maxFiles, nameMatches s.fs.sb filename i → o.Releases s i) ∧
      filename.strlen < maxNamelen ∧ o.LeavesBlank s := by
  refine and_congr (h.noMatch hne) (and_congr_right fun _ => exists_congr fun i => ?_)
  rw [h.firstEmpty]
  exact and_congr_right fun hi => h.blank hi.1

end Release

/-! ### Single steps -/

section Steps

variable {filename : CString} {w : Watched N}

/-- Invariant of clean runs. -/
def VacantInv (filename : CString) (w : Watched N) : Prop :=
  w.gone = true → Vacant filename w.io.fs.sb

theorem VacantInv.gone (h : VacantInv filename w) : Gone filename w := fun hg => (h hg).opensNew

/-- A step that leaves the directory as it is. -/
theorem VacantInv.congr (h : VacantInv filename w) {s : Io N} {gone : Bool} (hg : gone = true → w.gone = true)
    (hs : s.fs.sb = w.io.fs.sb) : VacantInv filename ⟨s, gone⟩ := by
  intro hgone
  change Vacant filename s.fs.sb
  rw [hs]
  exact h (hg hgone)

/-- An unlink that finds no calls releases what the name matches. -/
theorem vacantInv_unlink (hne : filename ≠ CString.empty) (h : VacantInv filename w) {f : CString}
    (hC : (IoOp.myfsUnlink f).Clean filename w) :
    VacantInv filename ⟨w.io.unlink f, (IoOp.myfsUnlink f).gone filename w.gone⟩ := by
  obtain ⟨hown, hblank⟩ := hC
  intro hgone
  simp only [IoOp.gone, Bool.or_eq_true, decide_eq_true_eq] at hgone
  refine ((releasing_unlink w.io f).vacant hne).mpr ?_
  by_cases hf : f = filename
  · obtain ⟨hlen, hidle⟩ := hown hf
    refine ⟨fun i hi hm => ?_, hlen, hblank (.inl hf)⟩
    rw [hf]
    exact ⟨hm, hidle i hi hm⟩
  · have hg := hgone.resolve_right hf
    obtain ⟨hno, hlen, -⟩ := h hg
    exact ⟨fun i hi hm => absurd hm (hno i hi), hlen, hblank (.inr hg)⟩

theorem vacantInv_testUnlinked (hne : filename ≠ CString.empty) (h : VacantInv filename w) {k : ℕ}
    (hC : (IoOp.testUnlinked k).Clean filename w) :
    VacantInv filename ⟨w.io.testUnlinked k, w.gone⟩ := by
  intro hg
  obtain ⟨hno, hlen, -⟩ := h hg
  exact ((releasing_testUnlinked w.io k).vacant hne).mpr
    ⟨fun i hi hm => absurd hm (hno i hi), hlen, hC hg⟩

/-- The directory once another name has taken the first empty slot. -/
theorem firstEmpty_openNew {s : Fs N} {f : CString} {k i : ℕ} (hf : f ≠ CString.empty)
    (hk : FirstEmpty s.sb k) :
    FirstEmpty (openNew s f k).sb i ↔ i < maxFiles ∧ k < i ∧ (s.sb.file i).name = CString.empty ∧
      ∀ l, k < l → l < i → (s.sb.file l).name ≠ CString.empty := by
  have hself : ((openNew s f k).sb.file k).name = f := by
    rw [openNew_file, Function.update_self]
  have hother : ∀ l, l ≠ k → ((openNew s f k).sb.file l).name = (s.sb.file l).name := by
    intro l hl
    rw [openNew_file, Function.update_of_ne hl]
  constructor
  · rintro ⟨hi, he, hlt⟩
    have hik : i ≠ k := by
      rintro rfl
      exact hf (hself.symm.trans he)
    rw [hother i hik] at he
    refine ⟨hi, lt_of_le_of_ne (Nat.le_of_not_lt fun hlt => hk.2.2 i hlt he) (Ne.symm hik), he, ?_⟩
    intro l hkl hli
    rw [← hother l (Nat.ne_of_gt hkl)]
    exact hlt l hli
  · rintro ⟨hi, hki, he, hlt⟩
    refine ⟨hi, (hother i (Nat.ne_of_gt hki)).trans he, fun l hl => ?_⟩
    rcases Nat.lt_trichotomy l k with hlk | hlk | hlk
    · rw [hother l (Nat.ne_of_lt hlk)]
      exact hk.2.2 l hlk
    · rw [hlk, hself]
      exact hf
    · rw [hother l (Nat.ne_of_gt hlk)]
      exact hlt l hlk hl

/-- A new file of another name is not one that `filename` matches. -/
theorem noMatch_openNew {s : Fs N} {f : CString} {k : ℕ} (hf : ¬ filename.IsPrefix f)
    (hno : NoMatch s.sb filename) : NoMatch (openNew s f k).sb filename := by
  intro i hi hm
  rw [nameMatches_iff, openNew_file] at hm
  by_cases hik : i = k
  · subst hik
    rw [Function.update_self] at hm
    exact hf hm
  · rw [Function.update_of_ne hik, ← nameMatches_iff] at hm
    exact hno i hi hm

/-- The empty name matches every slot. -/
theorem ne_empty_of_noMatch {sb : Superblock N} {f : CString} (hno : NoMatch sb f) : f ≠ CString.empty := by
  rintro rfl
  refine hno 0 (by simp [maxFiles]) ?_
  rw [nameMatches_iff]
  exact CString.empty_isPrefix _

theorem vacantInv_open (h : VacantInv filename w) {f : CString} {fs : Fs N} {k : ℕ}
    (hrel : f = filename ∨ ¬ filename.IsPrefix f) (hC : (IoOp.myfsOpen f).Clean filename w)
    (ho : OpenResult w.io.fs f fs k) :
    VacantInv filename ⟨{ w.io with fs := fs }, (IoOp.myfsOpen f).gone filename w.gone⟩ := by
  intro hgone
  simp only [IoOp.gone, Bool.and_eq_true, decide_eq_true_eq] at hgone
  obtain ⟨hg, hf⟩ := hgone
  obtain ⟨hno, hlen, hblank⟩ := h hg
  rcases ho with ⟨-, rfl⟩ | ⟨hnof, hk, -, rfl⟩
  · exact ⟨hno, hlen, hblank⟩
  · obtain ⟨i, hi, hki, he, hb, hlt⟩ := hC.2 hg hf hnof k hk
    refine ⟨noMatch_openNew (hrel.resolve_left hf) hno, hlen, i, ?_, ?_⟩
    · exact (firstEmpty_openNew (ne_empty_of_noMatch hnof) hk).mpr ⟨hi, hki, he, hlt⟩
    · change Blank ((openNew w.io.fs f k).sb.file i)
      rw [openNew_file, Function.update_of_ne (Nat.ne_of_gt hki)]
      exact hb

/-- A write maps a block in the slot that an open would take. -/
theorem blank_mapBlock {sb : Superblock N} {i b k : ℕ} (hb : b < maxBlocksPerFile)
    (hok : ((mapBlock sb i b).file i).block b ≠ inactiveBlock) :
    Blank ((mapBlock sb i b).file k) ↔ Blank (sb.file k) ∧ k ≠ i := by
  by_cases hk : k = i
  · subst hk
    exact iff_of_false (fun h => hok (h b hb)) fun h => h.2 rfl
  · rw [mapBlock_file_of_ne sb hk, and_iff_left hk]

theorem mapBlock_ok {sb : Superblock N} {i b : ℕ} (hm : (sb.file i).block b = inactiveBlock) :
    ((mapBlock sb i b).file i).block b = sb.free.cell sb.free.rp := by
  rw [mapBlock_file hm, Function.update_self, mapFile]
  exact Function.update_self ..

/-- A write leaves the name vacant unless it maps a block in the first empty slot. -/
theorem vacant_mapBlock {sb : Superblock N} (h : Vacant filename sb) {i b : ℕ} (hb : b < maxBlocksPerFile)
    (hok : ((mapBlock sb i b).file i).block b ≠ inactiveBlock) :
    Vacant filename (mapBlock sb i b) ↔ ¬ FirstEmpty sb i := by
  have hname : ∀ l < maxFiles, ((mapBlock sb i b).file l).name = (sb.file l).name :=
    fun l _ => mapBlock_name sb i b l
  obtain ⟨hno, hlen, k, hk, hblank⟩ := h
  constructor
  · rintro ⟨-, -, l, hl, hbl⟩ hi
    rw [firstEmpty_congr hname] at hl
    exact ((blank_mapBlock hb hok).mp hbl).2 (hl.unique hi)
  · intro hi
    refine ⟨(noMatch_congr hname).mpr hno, hlen, k, (firstEmpty_congr hname).mpr hk, ?_⟩
    exact (blank_mapBlock hb hok).mpr ⟨hblank, fun hki => hi (hki ▸ hk)⟩

theorem vacantInv_getLba (h : VacantInv filename w) {i offset : ℕ} {write : Bool}
    (hoff : iBlock offset < maxBlocksPerFile) (hC : (IoOp.myfsGetLba i offset write).Clean filename w) :
    (Io.getLbaStep i offset write w.io).Safe fun s => VacantInv filename ⟨s, w.gone⟩ := by
  refine getLba_step_safe hoff fun sb lba hget hg => ?_
  change Vacant filename sb
  cases write with
  | false =>
    rw [myfsGetLba, if_pos hoff] at hget
    injection hget with hget
    have hsb : w.io.fs.sb = sb := congrArg Prod.fst hget
    exact hsb ▸ h hg
  | true =>
    rw [myfsGetLba_write _ _ hoff] at hget
    injection hget with hget
    have hsb : mapBlock w.io.fs.sb i (iBlock offset) = sb := congrArg Prod.fst hget
    have hok : ((mapBlock w.io.fs.sb i (iBlock offset)).file i).block (iBlock offset) ≠ inactiveBlock := by
      intro hm
      rw [if_pos hm] at hget
      cases congrArg Prod.snd hget
    rw [← hsb]
    refine (vacant_mapBlock (h hg) hoff hok).mpr fun hi => hok ?_
    obtain ⟨-, -, k, hk, hblank⟩ := h hg
    rw [mapBlock_ok (hk.unique hi ▸ hblank _ hoff)]
    exact hC hg rfl hi

/-- One clean step. -/
theorem vacantInv_step (hne : filename ≠ CString.empty) (o : IoOp) (w : Watched N)
    (h : VacantInv filename w) (hA : o.Unrelated filename w) (hC : o.Clean filename w) :
    (o.watched filename w).Safe (VacantInv filename) := by
  rw [IoOp.watched, Outcome.safe_map]
  cases o with
  | myfsOpen f =>
    exact open_step_safe.mpr ⟨hC.1, fun fs k ho => vacantInv_open h (hA.2 f rfl) hC ho⟩
  | myfsUnlink f => exact vacantInv_unlink hne h hC
  | myfsGetLba i offset write => exact vacantInv_getLba h hA.1.2.2 hC
  | testUnlinked k => exact vacantInv_testUnlinked hne h hC
  | testOpen i =>
    refine h.congr id ?_
    unfold Io.testOpen
    split_ifs <;> rfl
  | _ => exact h.congr id rfl

/-! ### Steps that are not clean -/

/-- When the releases of an operation leave no slot to take, an open does not make a new file. -/
theorem Releasing.not_opensNew {o : IoOp} {s : Io N} {s' : Fs N} (h : Releasing o s s')
    (hne : filename ≠ CString.empty)
    (hall : ∀ i < maxFiles, nameMatches s.fs.sb filename i → o.Releases s i)
    (hC : ¬ (filename.strlen < maxNamelen ∧ o.LeavesBlank s)) : ¬ OpensNew filename s' := by
  intro hnew
  have hv := hnew.vacant ((h.noMatch hne).mpr hall)
  exact hC ((h.vacant hne).mp hv).2

/-- An unlink that finds a call leaves the old file to be opened. -/
theorem not_opensNew_unlink {s : Io N} (hne : filename ≠ CString.empty) {i : ℕ} (hi : i < maxFiles)
    (hm : nameMatches s.fs.sb filename i) (hr : (s.fs.states i).refCount ≠ 0) :
    ¬ OpensNew filename (myfsUnlink s.fs filename) := by
  have hkept : ∀ k < maxFiles, nameMatches (myfsUnlink s.fs filename).sb filename k →
      (myfsUnlink s.fs filename).sb.file k = s.fs.sb.file k ∧ (s.fs.states k).refCount ≠ 0 ∧
        nameMatches s.fs.sb filename k := by
    intro k hk hmk
    by_cases hrel : Released s.fs filename k
    · have hfile := (releasing_unlink s filename k hk).1 hrel
      refine absurd ?_ (name_ne_of_match hne hmk)
      rw [hfile]
      rfl
    · have hfile := (releasing_unlink s filename k hk).2 hrel
      have hmk' := (nameMatches_congr filename hfile).mp hmk
      exact ⟨hfile, fun hzero => hrel ⟨hmk', hzero⟩, hmk'⟩
  have hsome : ¬ NoMatch (myfsUnlink s.fs filename).sb filename := by
    intro hno
    refine hno i hi ?_
    have hfile := (releasing_unlink s filename i hi).2 fun hrel => hr hrel.2
    exact (nameMatches_congr filename hfile).mpr hm
  obtain ⟨k, hk⟩ := exists_firstMatch hsome
  obtain ⟨hfile, hrk, hmk⟩ := hkept k hk.1 hk.2.1
  refine not_opensNew_of_pending hk ⟨?_, ?_⟩
  · rw [myfsUnlink_states _ _ hk.1, if_pos hmk, if_neg hrk]
  · exact name_ne_of_match hne hk.2.1

/-- An open after which the next open of `filename` makes a new file. -/
theorem clean_of_open {f : CString} (h : VacantInv filename w) (hA : (IoOp.myfsOpen f).Unrelated filename w)
    (hsafe : ((IoOp.myfsOpen f).watched filename w).Safe (Gone filename)) :
    (IoOp.myfsOpen f).Clean filename w := by
  rw [IoOp.watched, Outcome.safe_map] at hsafe
  obtain ⟨hcan, hall⟩ := open_step_safe.mp hsafe
  refine ⟨hcan, fun hg hf hnof k hk => ?_⟩
  have hlen : f.strlen < maxNamelen := by
    rcases hcan with ⟨i, hi⟩ | ⟨-, hlen⟩
    · exact absurd hnof hi.not_noMatch
    · exact hlen
  have hgone : (IoOp.myfsOpen f).gone filename w.gone = true := by
    simp only [IoOp.gone, hg, Bool.true_and, decide_eq_true_eq]
    exact hf
  have hnew := hall _ k (.inr ⟨hnof, hk, hlen, rfl⟩) hgone
  have hno := noMatch_openNew (k := k) ((hA.2 f rfl).resolve_left hf) (h hg).1
  obtain ⟨-, -, i, hi, hblank⟩ := hnew.vacant hno
  obtain ⟨hi, hki, he, hlt⟩ := (firstEmpty_openNew (ne_empty_of_noMatch hnof) hk).mp hi
  refine ⟨i, hi, hki, he, ?_, hlt⟩
  change Blank ((openNew w.io.fs f k).sb.file i) at hblank
  rwa [openNew_file, Function.update_of_ne (Nat.ne_of_gt hki)] at hblank

/-- An unlink. -/
theorem clean_of_unlink {f : CString} (hne : filename ≠ CString.empty) (h : VacantInv filename w)
    (hsafe : ((IoOp.myfsUnlink f).watched filename w).Safe (Gone filename)) :
    (IoOp.myfsUnlink f).Clean filename w := by
  rw [IoOp.watched, Outcome.safe_map] at hsafe
  have hnew : f = filename ∨ w.gone = true → OpensNew filename (myfsUnlink w.io.fs f) := by
    intro hor
    apply hsafe
    simp only [IoOp.gone, Bool.or_eq_true, decide_eq_true_eq]
    exact hor.symm
  have hidle : f = filename → ∀ i < maxFiles, nameMatches w.io.fs.sb filename i →
      (w.io.fs.states i).refCount = 0 := by
    rintro rfl i hi hm
    by_contra hr
    exact not_opensNew_unlink hne hi hm hr (hnew (.inl rfl))
  have hall : f = filename ∨ w.gone = true → ∀ i < maxFiles, nameMatches w.io.fs.sb filename i →
      (IoOp.myfsUnlink f).Releases w.io i := by
    intro hor i hi hm
    by_cases hf : f = filename
    · rw [hf]
      exact ⟨hm, hidle hf i hi hm⟩
    · exact absurd hm ((h (hor.resolve_left hf)).1 i hi)
  have hleft : f = filename ∨ w.gone = true →
      filename.strlen < maxNamelen ∧ (IoOp.myfsUnlink f).LeavesBlank w.io := by
    intro hor
    by_contra hno
    exact (releasing_unlink w.io f).not_opensNew hne (hall hor) hno (hnew hor)
  exact ⟨fun hf => ⟨(hleft (.inl hf)).1, hidle hf⟩, fun hor => (hleft hor).2⟩

/-- A request for a block. -/
theorem clean_of_getLba {offset : ℕ} {write : Bool} (h : VacantInv filename w)
    (hoff : iBlock offset < maxBlocksPerFile)
    (hsafe : ((IoOp.myfsGetLba i offset write).watched filename w).Safe (Gone filename)) :
    (IoOp.myfsGetLba i offset write).Clean filename w := by
  rw [IoOp.watched, Outcome.safe_map] at hsafe
  intro hg hw hi
  subst hw
  by_contra hcell
  obtain ⟨hno, hlen, k, hk, hblank⟩ := h hg
  have hok : ((mapBlock w.io.fs.sb i (iBlock offset)).file i).block (iBlock offset) ≠ inactiveBlock := by
    rw [mapBlock_ok (hk.unique hi ▸ hblank _ hoff)]
    exact hcell
  rw [IoOp.step, Io.getLbaStep, myfsGetLba_write _ _ hoff, if_neg hok] at hsafe
  have hname : ∀ l < maxFiles, ((mapBlock w.io.fs.sb i (iBlock offset)).file l).name =
      (w.io.fs.sb.file l).name := fun l _ => mapBlock_name _ _ _ l
  have hv := (hsafe hg).vacant ((noMatch_congr hname).mpr hno)
  exact (vacant_mapBlock (h hg) hoff hok).mp hv hi

/-- The last read of a slot's state. -/
theorem clean_of_testUnlinked {k : ℕ} (hne : filename ≠ CString.empty) (h : VacantInv filename w)
    (hsafe : ((IoOp.testUnlinked k).watched filename w).Safe (Gone filename)) :
    (IoOp.testUnlinked k).Clean filename w := by
  rw [IoOp.watched, Outcome.safe_map] at hsafe
  intro hg
  by_contra hno
  exact (releasing_testUnlinked w.io k).not_opensNew hne
    (fun i hi hm => absurd hm ((h hg).1 i hi)) (fun hboth => hno hboth.2) (hsafe hg)

/-- A step that is not clean is undefined, or the next open does not make a new file. -/
theorem not_clean_step (hne : filename ≠ CString.empty) (o : IoOp) (w : Watched N)
    (h : VacantInv filename w) (hA : o.Unrelated filename w) (hC : ¬ o.Clean filename w) :
    ¬ (o.watched filename w).Safe (Gone filename) := by
  intro hsafe
  apply hC
  cases o with
  | myfsOpen f => exact clean_of_open h hA hsafe
  | myfsUnlink f => exact clean_of_unlink hne h hsafe
  | myfsGetLba i offset write => exact clean_of_getLba h hA.1.2.2 hsafe
  | testUnlinked k => exact clean_of_testUnlinked hne h hsafe
  | _ => exact trivial

end Steps

/-! ### Runs -/

/-- From mount on, the next open of an unlinked name makes a new file and cancels no release, exactly
in the runs whose steps are all clean. -/
theorem gone_iff_clean {filename : CString} (hne : filename ≠ CString.empty) (sb : Superblock N)
    (ops : List IoOp)
    (hA : Meets (IoOp.watched filename) (IoOp.Unrelated filename) ops ⟨.idle (myfsMount sb), false⟩) :
    Always (IoOp.watched filename) (Gone filename) ops ⟨.idle (myfsMount sb), false⟩ ↔
      Meets (IoOp.watched filename) (IoOp.Clean filename) ops ⟨.idle (myfsMount sb), false⟩ :=
  always_iff_meets (fun _ h => h.gone) (vacantInv_step hne) (not_clean_step hne) (fun h => by cases h) hA

theorem watched_ok {filename : CString} {o : IoOp} {w : Watched N} {s : Io N} (h : o.step w.io = .ok s) :
    o.watched filename w = .ok ⟨s, o.gone filename w.gone⟩ := by
  rw [IoOp.watched, h, Outcome.map_ok]

/-! ### One write, an unlink and an open -/

section Examples

theorem nameA_ne_empty : nameA ≠ CString.empty := by decide

theorem emptyTable_blank (name : CString) (n : ℕ) : Blank ⟨name, emptyTable, n⟩ :=
  fun _ hj => if_pos hj

theorem watched_open (hN : 1 < N) :
    (IoOp.myfsOpen nameA).watched nameA ⟨.idle (freshFs N hN), false⟩ =
      .ok ⟨.idle (oneFile N hN), false⟩ := watched_ok (idle_open hN)

/-- The two halves of `myfs_increment_ref`. -/
theorem watched_start (s : Io N) :
    (IoOp.testOpen 0).watched nameA ⟨s, false⟩ = .ok ⟨s.testOpen 0, false⟩ ∧
      (IoOp.increment 0).watched nameA ⟨s, false⟩ = .ok ⟨s.increment 0, false⟩ := ⟨rfl, rfl⟩

theorem watched_write (hN : 1 < N) :
    (IoOp.myfsGetLba 0 0 true).watched nameA
        ⟨((Io.idle (oneFile N hN)).testOpen 0).increment 0, false⟩ = .ok ⟨writing hN, false⟩ := by
  rw [IoOp.watched, IoOp.step, writing_getLba hN, Outcome.map_ok]
  rfl

/-- The theorem at a file that is unlinked while nobody reads or writes it. -/
theorem gone_after_unlink :
    Always (IoOp.watched nameA) (Gone nameA) [.myfsOpen nameA, .myfsUnlink nameA]
      ⟨.idle (myfsMount (zeroSuperblock numBlocks one_lt_numBlocks)), false⟩ := by
  have h1 := watched_open one_lt_numBlocks
  refine (gone_iff_clean nameA_ne_empty _ _ ?_).mpr ?_
  · rw [mount_zero]
    refine ⟨⟨trivial, fun f hf => .inl (IoOp.myfsOpen.inj hf).symm⟩, ?_⟩
    rw [h1, Outcome.after_ok]
    exact ⟨⟨trivial, by simp⟩, trivial⟩
  · rw [mount_zero]
    refine ⟨⟨fresh_canOpen _ _, by simp⟩, ?_⟩
    rw [h1, Outcome.after_ok]
    refine ⟨⟨fun _ => ⟨nameA_short, fun i _ _ => oneFile_refCount _ _ i⟩, fun _ => ⟨0, ?_, ?_, ?_⟩⟩, trivial⟩
    · refine ⟨maxFiles_pos, .inr ⟨?_, oneFile_refCount _ _ 0⟩, fun k hk => absurd hk (Nat.not_lt_zero k)⟩
      change nameMatches (oneFile numBlocks one_lt_numBlocks).sb nameA 0
      rw [nameMatches_iff, oneFile_file]
      exact CString.isPrefix_refl _
    · intro _ j hj _
      change ((oneFile numBlocks one_lt_numBlocks).sb.file 0).block j = inactiveBlock
      rw [oneFile_file]
      exact emptyTable_blank nameA 0 j hj
    · intro _
      change Blank ((oneFile numBlocks one_lt_numBlocks).sb.file 0)
      rw [oneFile_file]
      exact emptyTable_blank nameA 0

/-- Write the first block of a new file, and unlink it meanwhile. -/
def reopenRun : List IoOp :=
  [.myfsOpen nameA, .testOpen 0, .increment 0, .myfsGetLba 0 0 true, .myfsUnlink nameA]

theorem reopen_run (hN : 1 < N) :
    run (IoOp.watched nameA) reopenRun ⟨.idle (freshFs N hN), false⟩ =
      .ok ⟨(writing hN).unlink nameA, true⟩ := by
  rw [reopenRun, run_cons, watched_open, Outcome.bind_ok, run_cons, (watched_start _).1, Outcome.bind_ok,
    run_cons, (watched_start _).2, Outcome.bind_ok, run_cons, watched_write, Outcome.bind_ok, run_cons]
  rfl

/-- The next open finds the old file with its block, and cancels its release. -/
theorem reopened_old_file :
    Meets (IoOp.watched nameA) (IoOp.Unrelated nameA) reopenRun
        ⟨.idle (myfsMount (zeroSuperblock numBlocks one_lt_numBlocks)), false⟩ ∧
      ¬ Always (IoOp.watched nameA) (Gone nameA) reopenRun
        ⟨.idle (myfsMount (zeroSuperblock numBlocks one_lt_numBlocks)), false⟩ ∧
      ∃ s t, run (IoOp.watched nameA) reopenRun
          ⟨.idle (myfsMount (zeroSuperblock numBlocks one_lt_numBlocks)), false⟩ = .ok ⟨s, true⟩ ∧
        Pending s.fs 0 ∧ myfsOpen s.fs nameA = some (t, 0) ∧
        (t.sb.file 0).nBlock = 1 ∧ (t.sb.file 0).block 0 = 0 ∧ ¬ Pending t 0 := by
  have h2 : (Io.idle (oneFile numBlocks one_lt_numBlocks)).testOpen 0 = _ :=
    testOpen_open (oneFile_flags one_lt_numBlocks)
  have hrun := reopen_run one_lt_numBlocks
  obtain ⟨hpend, hfile⟩ := writing_unlink one_lt_numBlocks
  have hfirst : FirstMatch (myfsUnlink (writing one_lt_numBlocks).fs nameA).sb nameA 0 := by
    refine ⟨maxFiles_pos, ?_, fun k hk => absurd hk (Nat.not_lt_zero k)⟩
    rw [nameMatches_iff, hfile, writing_file]
    exact CString.isPrefix_refl _
  rw [mount_zero]
  refine ⟨?_, fun h => not_opensNew_of_pending hfirst hpend (h.at_end hrun rfl), _, _, hrun, hpend,
    myfsOpen_eq_some.mpr (.inl ⟨hfirst, rfl⟩), ?_, ?_, ?_⟩
  · refine ⟨⟨trivial, fun f hf => .inl (IoOp.myfsOpen.inj hf).symm⟩, ?_⟩
    rw [watched_open, Outcome.after_ok]
    refine ⟨⟨maxFiles_pos, by simp⟩, ?_⟩
    rw [(watched_start _).1, Outcome.after_ok]
    refine ⟨⟨⟨maxFiles_pos, by rw [h2]; simp [Io.idle]⟩, by simp⟩, ?_⟩
    rw [(watched_start _).2, Outcome.after_ok]
    refine ⟨⟨⟨maxFiles_pos, by simp [Io.increment], iBlock_zero.symm ▸ tab_pos⟩, by simp⟩, ?_⟩
    rw [watched_write, Outcome.after_ok]
    exact ⟨⟨trivial, by simp⟩, trivial⟩
  · rw [openFound_file, Io.unlink_fs, hfile, writing_file]
  · rw [openFound_file, Io.unlink_fs, hfile, writing_file]
    rfl
  · exact not_pending_openFound _ 0

end Examples

end Pthabt.Myfs
