import Pthabt.Nvme.Controller

/-! The admin queue between `__nvme_init` and the controller. The host has one command in it at a
time; each goes through its slot of the submission queue, is accepted, and comes back through the
completion queue, over any number of laps of the two. -/

namespace Pthabt.Nvme

open Lib Run PhaseRing

/-! ### Memory -/

/-- The pages that `__nvme_init` uses. -/
def InitConfig.Uses (c : InitConfig) : PageId → Prop
  | .sqcq qid => qid ≤ c.nCore
  | .buf4k qid i => qid ≤ c.nCore ∧ i < n2mbPage c.qd

/-- A page of `malloc_2MB` is a huge page: its 512 entries in `/proc/self/pagemap` show it present,
in frames that follow each other. -/
structure HugePage (c : InitConfig) (p : PageId) (frame : ℕ) : Prop where
  aligned : c.page p % 2 ^ 21 = 0
  frame_aligned : frame % 512 = 0
  frame_le : frame + 512 ≤ 2 ^ 52
  present : ∀ i < 512, ∃ e, c.pagemap (c.page p / pageSize + i) = some e ∧ e.testBit 63 = true ∧
    e % 2 ^ 55 = frame + i

/-- The sizes fit the controller and the memory of a queue pair, pages are different, and `rbuf` of
the admin queue happens to be null. -/
structure InitConfig.Valid (c : InitConfig) : Prop where
  cores : c.nCore ≤ c.queues
  queues : c.queues < 2 ^ 16
  two_le : 2 ≤ c.qd
  qd_le : c.qd ≤ 1024
  entries : c.qd ≤ c.entries
  huge : ∀ p, c.Uses p → ∃ frame, HugePage c p frame
  distinct : ∀ p p', c.Uses p → c.Uses p' → c.pa p = c.pa p' → p = p'
  rbuf : ∀ i < aqd, c.rbuf i = 0

section Memory

variable {c : InitConfig} {p p' : PageId} {frame : ℕ}

/-- An address in a page that is present. -/
theorem v2p_of_entry {pagemap : ℕ → Option ℕ} {e frame va : ℕ} (h : pagemap (va / pageSize) = some e)
    (hp : e.testBit 63 = true) (he : e % 2 ^ 55 = frame) (hf : frame < 2 ^ 52) :
    v2p pagemap va = frame * pageSize + va % pageSize := by
  have hva : va &&& (pageSize - 1) = va % pageSize := Nat.and_two_pow_sub_one_eq_mod va 12
  have hlt : va % pageSize < 2 ^ 12 := Nat.mod_lt va (by decide)
  have hmul : frame * pageSize = frame <<< 12 := by
    rw [Nat.shiftLeft_eq]
    rfl
  have hmod : frame * pageSize % 2 ^ 64 = frame * pageSize :=
    Nat.mod_eq_of_lt (by rw [pageSize]; omega)
  rw [v2p, h]
  dsimp only
  rw [if_pos hp, Nat.and_two_pow_sub_one_eq_mod, he, hva, hmod, hmul, Nat.shiftLeft_add_eq_or_of_lt hlt]

theorem HugePage.v2p_add (h : HugePage c p frame) {k : ℕ} (hk : k < 2 ^ 21) :
    v2p c.pagemap (c.page p + k) = frame * pageSize + k := by
  have ha := h.aligned
  have hpos := h.frame_le
  have hi : k / pageSize < 512 := by rw [pageSize]; omega
  obtain ⟨e, he, hbit, hframe⟩ := h.present _ hi
  have hdiv : (c.page p + k) / pageSize = c.page p / pageSize + k / pageSize := by
    rw [pageSize]
    omega
  rw [v2p_of_entry (by rw [hdiv]; exact he) hbit hframe (by omega), pageSize]
  rw [pageSize] at hi
  omega

theorem HugePage.pa_eq (h : HugePage c p frame) : c.pa p = frame * pageSize := by
  have h0 := h.v2p_add (k := 0) (by omega)
  rw [Nat.add_zero, Nat.add_zero] at h0
  exact h0

/-- Addresses in a huge page are translated by its base. -/
theorem InitConfig.Valid.v2p_add (hv : c.Valid) (hp : c.Uses p) {k : ℕ} (hk : k < 2 ^ 21) :
    v2p c.pagemap (c.page p + k) = c.pa p + k := by
  obtain ⟨frame, h⟩ := hv.huge p hp
  rw [h.v2p_add hk, h.pa_eq]

theorem InitConfig.Valid.pa_mod (hv : c.Valid) (hp : c.Uses p) : c.pa p % 2 ^ 21 = 0 := by
  obtain ⟨frame, h⟩ := hv.huge p hp
  have := h.frame_aligned
  rw [h.pa_eq, pageSize]
  omega

theorem InitConfig.Valid.pa_lt (hv : c.Valid) (hp : c.Uses p) : c.pa p + 2 ^ 21 ≤ 2 ^ 64 := by
  obtain ⟨frame, h⟩ := hv.huge p hp
  have := h.frame_le
  rw [h.pa_eq, pageSize]
  omega

/-- Different pages do not overlap. -/
theorem InitConfig.Valid.apart (hv : c.Valid) (hp : c.Uses p) (hp' : c.Uses p') (hne : p ≠ p') :
    c.pa p / 4 + pageWords ≤ c.pa p' / 4 ∨ c.pa p' / 4 + pageWords ≤ c.pa p / 4 := by
  have h := hv.pa_mod hp
  have h' := hv.pa_mod hp'
  have hd : c.pa p ≠ c.pa p' := fun he => hne (hv.distinct p p' hp hp' he)
  rw [pageWords]
  omega

end Memory

/-- The page `sqcq` of a queue pair. -/
def InitConfig.seen (c : InitConfig) (qid : ℕ) (mem : ℕ → ℕ) : ℕ → ℕ := window (c.cqPa qid / 4) mem

section Seen

variable {c : InitConfig} {mem : ℕ → ℕ} {p : PageId} {q : ℕ}

/-- A change in another page. -/
theorem InitConfig.Valid.seen_other (hv : c.Valid) (hq : q ≤ c.nCore) (hp : c.Uses p) (hne : p ≠ .sqcq q)
    {f : (ℕ → ℕ) → ℕ → ℕ} (hf : Within pageWords f) {w : ℕ} (hw : w < pageWords) :
    c.seen q (inWindow (c.pa p / 4) f mem) w = c.seen q mem w :=
  window_inWindow_of_apart hf mem hw (hv.apart hp (show c.Uses (.sqcq q) from hq) hne)

/-- The entry of a command in the page of the admin queue. -/
theorem InitConfig.Valid.word_getSqe (hv : c.Valid) {i : ℕ} (hi : i < aqd) :
    c.word (c.getSqe 0 i) = c.cqPa 0 / 4 + (sqOffset + 16 * i) := by
  have hmod := hv.pa_mod (p := .sqcq 0) (Nat.zero_le _)
  have haddr : c.getSqe 0 i = c.page (.sqcq 0) + (0x4000 + 64 * i) := by
    rw [InitConfig.getSqe, Nat.add_assoc]
  rw [aqd] at hi
  rw [InitConfig.word, haddr, hv.v2p_add (p := .sqcq 0) (Nat.zero_le _) (by omega), sqOffset_eq,
    InitConfig.cqPa]
  omega

theorem InitConfig.Valid.word_getCqe (hv : c.Valid) {i : ℕ} (hi : i < aqd) :
    c.word (c.getCqe 0 i) = c.cqPa 0 / 4 + 4 * i := by
  have hmod := hv.pa_mod (p := .sqcq 0) (Nat.zero_le _)
  rw [aqd] at hi
  rw [InitConfig.word, InitConfig.getCqe, hv.v2p_add (p := .sqcq 0) (Nat.zero_le _) (by omega),
    InitConfig.cqPa]
  omega

/-- The host reads the completion entry at a position. -/
theorem cqSlot_window (m : ℕ → ℕ) (i : ℕ) :
    (cqeCid (window (4 * i) m) 0, cqeP (window (4 * i) m) 0) = cqSlot m i := by
  simp only [cqSlot, cqeCid, cqeP, window, Nat.mul_zero, Nat.zero_add]

theorem inWindow_writeCqe (m : ℕ → ℕ) (i : ℕ) (x : Cqe) :
    inWindow (4 * i) (fun m => writeCqe m 0 x) m = writeCqe m i x := by
  funext w
  unfold inWindow writeCqe window
  by_cases h : 4 * i ≤ w
  · rw [if_pos h]
    dsimp only
    rw [Nat.add_sub_cancel' h]
    split_ifs <;> first | rfl | omega
  · rw [if_neg h]
    split_ifs <;> first | rfl | omega

/-- The memory of a new queue pair. -/
theorem seen_qpMem (c : InitConfig) (q : ℕ) (mem : ℕ → ℕ) {w : ℕ} (hw : w < pageWords) :
    c.seen q (BringUp.qpMem c q mem) w = initSqcq (c.size q) w := by
  rw [BringUp.qpMem, InitConfig.seen, window_inWindow, if_pos hw]

theorem zeroPage_within : Within pageWords fun (m : ℕ → ℕ) w => if w < pageWords then 0 else m w :=
  fun _ _ hw => if_neg (Nat.not_lt.mpr hw)

/-- The constructor leaves the pages of the other queue pairs. -/
theorem InitConfig.Valid.seen_qpMem_of_ne (hv : c.Valid) {qid : ℕ} (hqid : qid ≤ c.nCore)
    (hq : q ≤ c.nCore) (hne : q ≠ qid) (mem : ℕ → ℕ) {w : ℕ} (hw : w < pageWords) :
    c.seen q (BringUp.qpMem c qid mem) w = c.seen q mem w := by
  have hsq : c.seen q (BringUp.qpMem c qid mem) w = c.seen q _ w :=
    hv.seen_other hq (p := .sqcq qid) hqid (fun h => hne (PageId.sqcq.inj h).symm)
      (fun _ _ hw => if_neg (Nat.not_lt.mpr hw)) hw
  rw [hsq]
  have hfold : ∀ l : List ℕ, (∀ i ∈ l, i < n2mbPage c.qd) → ∀ mem : ℕ → ℕ,
      c.seen q (l.foldl (fun mem i => inWindow (c.pa (.buf4k qid i) / 4)
        (fun m w => if w < pageWords then 0 else m w) mem) mem) w = c.seen q mem w := by
    intro l
    induction l with
    | nil => exact fun _ _ => rfl
    | cons i l ih =>
      intro hl mem
      rw [List.foldl_cons, ih fun j hj => hl j (List.mem_cons_of_mem _ hj)]
      exact hv.seen_other hq (p := .buf4k qid i) ⟨hqid, hl i List.mem_cons_self⟩ nofun
        zeroPage_within hw
  exact hfold _ (fun i hi => List.mem_range.mp hi) mem

end Seen

/-! ### Commands -/

namespace AdminCmd

/-- The number of a command; the commands of a queue pair come after those of the one before. -/
def no : AdminCmd → ℕ
  | .identify => 0
  | .createCq qid => 2 * qid - 1
  | .createSq qid => 2 * qid

/-- How many queue pairs were constructed before it. -/
def made : AdminCmd → ℕ
  | .identify => 1
  | .createCq qid | .createSq qid => qid + 1

/-- It is for the queue pair of a core. -/
def Ok (c : InitConfig) : AdminCmd → Prop
  | .identify => True
  | .createCq qid | .createSq qid => 0 < qid ∧ qid ≤ c.nCore

/-- An entry has what the host stores for a command, and the identifier of its slot. -/
structure Sent (c : InitConfig) (k : AdminCmd) (e : AdminSqe) : Prop where
  opc : e.opc = (k.fields c (k.no % aqd)).opc
  cid : e.cid = k.no % aqd
  prp1 : e.prp1 = (k.fields c (k.no % aqd)).prp1
  cdw10 : e.cdw10 = (k.fields c (k.no % aqd)).cdw10
  cdw11 : ∀ x ∈ (k.fields c (k.no % aqd)).cdw11, e.cdw11 = x

end AdminCmd

/-- The completion queues that the first `n` commands create. -/
def createdCqs (c : InitConfig) (n : ℕ) : ℕ → Option (ℕ × ℕ) := fun qid =>
  if 0 < qid ∧ qid ≤ c.nCore ∧ 2 * qid ≤ n then some (c.cqPa qid, c.qd) else none

/-- The submission queues that the first `n` commands create. -/
def createdSqs (c : InitConfig) (n : ℕ) : ℕ → Option (ℕ × ℕ × ℕ) := fun qid =>
  if 0 < qid ∧ qid ≤ c.nCore ∧ 2 * qid < n then some (c.sqPa qid, c.qd, qid) else none

section Commands

variable {c : InitConfig} {k : AdminCmd}

theorem shiftLeft_or (a : ℕ) {b : ℕ} (hb : b < 2 ^ 16) : a <<< 16 ||| b = a * 2 ^ 16 + b := by
  rw [← Nat.shiftLeft_add_eq_or_of_lt hb, Nat.shiftLeft_eq]

theorem createdCqs_update {q : ℕ} (hq : 0 < q) (hle : q ≤ c.nCore) :
    Function.update (createdCqs c (2 * q - 1)) q (some (c.cqPa q, c.qd)) = createdCqs c (2 * q) := by
  funext i
  by_cases hi : i = q
  · subst hi
    rw [Function.update_self, createdCqs, if_pos ⟨hq, hle, Nat.le_refl _⟩]
  · rw [Function.update_of_ne hi, createdCqs, createdCqs]
    by_cases h : 0 < i ∧ i ≤ c.nCore ∧ 2 * i ≤ 2 * q
    · rw [if_pos h, if_pos (by omega)]
    · rw [if_neg h, if_neg (by omega)]

theorem createdSqs_update {q : ℕ} (hq : 0 < q) (hle : q ≤ c.nCore) :
    Function.update (createdSqs c (2 * q)) q (some (c.sqPa q, c.qd, q)) = createdSqs c (2 * q + 1) := by
  funext i
  by_cases hi : i = q
  · subst hi
    rw [Function.update_self, createdSqs, if_pos ⟨hq, hle, Nat.lt_succ_self _⟩]
  · rw [Function.update_of_ne hi, createdSqs, createdSqs]
    by_cases h : 0 < i ∧ i ≤ c.nCore ∧ 2 * i < 2 * q
    · rw [if_pos h, if_pos (by omega)]
    · rw [if_neg h, if_neg (by omega)]

/-- An even number of commands creates the completion queues that one more does. -/
theorem createdCqs_even (c : InitConfig) (q : ℕ) : createdCqs c (2 * q + 1) = createdCqs c (2 * q) := by
  funext i
  have h : 2 * i ≤ 2 * q + 1 ↔ 2 * i ≤ 2 * q := by omega
  simp only [createdCqs, h]

theorem createdSqs_odd (c : InitConfig) {q : ℕ} (hq : 0 < q) :
    createdSqs c (2 * q) = createdSqs c (2 * q - 1) := by
  funext i
  have h : 2 * i < 2 * q ↔ 2 * i < 2 * q - 1 := by omega
  simp only [createdSqs, h]

theorem created_one (c : InitConfig) :
    createdCqs c 1 = createdCqs c 0 ∧ createdSqs c 1 = createdSqs c 0 := by
  refine ⟨createdCqs_even c 0, ?_⟩
  funext i
  simp only [createdSqs]
  split_ifs <;> first | rfl | omega

/-- The fields that a command for a queue has. -/
theorem size_fields (hv : c.Valid) {q : ℕ} (hq : 0 < q) (hle : q ≤ c.nCore) :
    ((c.size q - 1) <<< 16 ||| q) % 2 ^ 16 = q ∧ ((c.size q - 1) <<< 16 ||| q) / 2 ^ 16 + 1 = c.qd := by
  have h16 := hv.queues
  have hc := hv.cores
  have h2 := hv.two_le
  rw [shiftLeft_or _ (by omega), InitConfig.size, if_neg (by omega)]
  omega

theorem adminBufPa_zero (c : InitConfig) : c.adminBufPa 0 = c.pa (.buf4k 0 0) := by
  rw [InitConfig.adminBufPa, Nat.zero_mod, Nat.zero_div, Nat.mul_zero, Nat.add_zero]

theorem n2mbPage_pos (qd : ℕ) : 0 < n2mbPage qd := by
  unfold n2mbPage
  omega

theorem InitConfig.Valid.mod_pageSize (hv : c.Valid) {p : PageId} (hp : c.Uses p) :
    c.pa p % pageSize = 0 := by
  have := hv.pa_mod hp
  rw [pageSize]
  omega

/-- No command is refused. -/
theorem perform_sent (hv : c.Valid) (hk : k.Ok c) {e : AdminSqe} (he : k.Sent c e) {K : Controller}
    (hcc : K.cc = 0x460001) (hcqs : K.cqs = createdCqs c k.no) (hsqs : K.sqs = createdSqs c k.no) :
    K.perform c e = some { K with cqs := createdCqs c (k.no + 1), sqs := createdSqs c (k.no + 1) } := by
  have hopc := he.opc
  have hprp := he.prp1
  have hdw := he.cdw10
  cases k with
  | identify =>
    obtain ⟨hc1, hs1⟩ := created_one c
    have hpage : e.prp1 % pageSize = 0 := by
      rw [hprp, AdminCmd.fields]
      exact (congrArg (· % pageSize) (adminBufPa_zero c)).trans
        (hv.mod_pageSize (p := .buf4k 0 0) ⟨Nat.zero_le _, n2mbPage_pos _⟩)
    have hcns : e.cdw10 % 2 ^ 8 = 1 := by rw [hdw]; rfl
    have hop : e.opc = 0x6 := hopc
    rw [Controller.perform, if_pos hop, if_pos ⟨hcns, hpage⟩]
    change some K = some { K with cqs := createdCqs c 1, sqs := createdSqs c 1 }
    rw [hc1, hs1]
    change _ = some { K with cqs := createdCqs c AdminCmd.identify.no, sqs := createdSqs c AdminCmd.identify.no }
    rw [← hcqs, ← hsqs]
  | createCq q =>
    obtain ⟨hq, hle⟩ := hk
    obtain ⟨hid, hsize⟩ := size_fields hv hq hle
    have h2 := hv.two_le
    have hqs := hv.cores
    have hop : e.opc = 0x5 := hopc
    have hflags : e.cdw11 = 1 := he.cdw11 1 rfl
    have hpage : e.prp1 % pageSize = 0 := by
      rw [hprp]
      exact hv.mod_pageSize (p := .sqcq q) hle
    have hnone : K.cqs q = none := by
      rw [hcqs]
      exact if_neg (by simp only [AdminCmd.no]; omega)
    have hbase : e.prp1 = c.cqPa q := hprp
    have hfield : e.cdw10 = (c.size q - 1) <<< 16 ||| q := hdw
    have hno : (AdminCmd.createCq q).no + 1 = 2 * q := by
      rw [AdminCmd.no]
      omega
    rw [Controller.perform, if_neg (by rw [hop]; decide), if_pos hop, hfield, hid, hsize,
      if_pos ⟨⟨hq, by omega, by omega, hv.entries, by rw [hflags], hpage⟩, hnone, by rw [hcc]; decide⟩,
      hbase, hno, hcqs, createdSqs_odd c hq]
    change some { K with cqs := Function.update (createdCqs c (2 * q - 1)) q _ } = _
    rw [createdCqs_update hq hle]
    change _ = some { K with cqs := createdCqs c (2 * q), sqs := createdSqs c (AdminCmd.createCq q).no }
    rw [← hsqs]
  | createSq q =>
    obtain ⟨hq, hle⟩ := hk
    obtain ⟨hid, hsize⟩ := size_fields hv hq hle
    have h2 := hv.two_le
    have hqs := hv.cores
    have h16 := hv.queues
    have hop : e.opc = 0x1 := hopc
    have hflags : e.cdw11 = q * 2 ^ 16 + 1 := by
      rw [he.cdw11 _ rfl, shiftLeft_or q (by decide)]
    have hbase : e.prp1 = c.sqPa q := hprp
    have hpage : e.prp1 % pageSize = 0 := by
      have hmod := hv.mod_pageSize (p := .sqcq q) hle
      rw [hbase, InitConfig.sqPa]
      rw [pageSize] at hmod ⊢
      omega
    have hnone : K.sqs q = none := by
      rw [hsqs]
      exact if_neg (by simp only [AdminCmd.no]; omega)
    have hcqid : e.cdw11 / 2 ^ 16 = q := by
      rw [hflags]
      omega
    have hsome : (K.cqs q).isSome := by
      rw [hcqs, createdCqs, if_pos ⟨hq, hle, Nat.le_refl _⟩]
      rfl
    have hfield : e.cdw10 = (c.size q - 1) <<< 16 ||| q := hdw
    have hno : (AdminCmd.createSq q).no = 2 * q := rfl
    rw [Controller.perform, if_neg (by rw [hop]; decide), if_neg (by rw [hop]; decide), if_pos hop, hfield,
      hid, hsize, hcqid,
      if_pos ⟨⟨hq, by omega, by omega, hv.entries, by rw [hflags]; omega, hpage⟩, hnone, hsome,
        by rw [hcc]; decide⟩, hbase, hno, hsqs, createdCqs_even]
    change some { K with sqs := Function.update (createdSqs c (2 * q)) q _ } = _
    rw [createdSqs_update hq hle]
    change _ = some { K with cqs := createdCqs c (AdminCmd.createSq q).no, sqs := createdSqs c (2 * q + 1) }
    rw [← hcqs]

end Commands

/-! ### Invariant -/

/-- The registers of the controller once it was enabled. -/
structure Configured (c : InitConfig) (K : Controller) : Prop where
  cc : K.cc = 0x460001
  asq : K.asq = c.sqPa 0
  acq : K.acq = c.cqPa 0
  aqa : K.aqa = 0x70007
  refused : K.refused = false

/-- The admin queue between the host and the controller, so many of whose commands got a slot, were
submitted, executed, completed and consumed; `made` queue pairs were constructed. -/
structure AdminQueue (c : InitConfig) (s : BringUp) (made issued rung executed posted taken : ℕ) :
    Prop where
  configured : Configured c s.ctrl
  csts : s.ctrl.csts = 1
  sqTail : s.ctrl.sqTail = rung % aqd
  sqHead : s.ctrl.sqHead = executed % aqd
  history : s.ctrl.posted = (List.range posted).map (· % aqd)
  pending : s.ctrl.pending = if posted < executed then some (posted % aqd, true) else none
  cqs : s.ctrl.cqs = createdCqs c executed
  sqs : s.ctrl.sqs = createdSqs c executed
  tail : s.sqTail = issued % aqd
  head : s.cqHead = taken % aqd
  phase : s.cqPhase = tag aqd taken
  flags : ∀ i < aqd, s.doneFlag i = 0 ↔ taken < issued ∧ i = taken % aqd
  rbuf : ∀ i < aqd, s.rbuf i = 0
  ring : Holds aqd (cqSlot (c.seen 0 s.mem)) s.ctrl.posted
  cids : ∀ i < aqd, c.seen 0 s.mem (sqOffset + 16 * i) / 2 ^ 16 % 2 ^ 16 = i
  pages : ∀ q, 0 < q → q < made → ∀ w < pageWords, c.seen q s.mem w = initSqcq c.qd w
  made_le : made ≤ c.nq

/-- The host waits for command `k`. -/
def Waiting (c : InitConfig) (s : BringUp) (k : AdminCmd) : Prop :=
  ∃ executed posted taken, AdminQueue c s k.made (k.no + 1) (k.no + 1) executed posted taken ∧
    k.no ≤ taken ∧ taken ≤ posted ∧ posted ≤ executed ∧ executed ≤ k.no + 1 ∧
    (executed = k.no → k.Sent c (s.ctrl.entry s.mem)) ∧
    (taken = k.no + 1 → s.doneFlag (k.no % aqd) = 1)

/-- All commands so far were consumed, and `k` is the next one. -/
def AtRest (c : InitConfig) (s : BringUp) (made no : ℕ) : Prop := AdminQueue c s made no no no no no

/-- A completion of command `k` is in the queue. -/
def Arrived (c : InitConfig) (s : BringUp) (k : AdminCmd) : Prop :=
  AdminQueue c s k.made (k.no + 1) (k.no + 1) (k.no + 1) (k.no + 1) k.no

/-! ### The controller -/

section Controller

variable {c : InitConfig} {s : BringUp} {k : AdminCmd} {made issued rung executed posted taken : ℕ}

theorem AdminQueue.goto (h : AdminQueue c s made issued rung executed posted taken) (pc : InitPc) :
    AdminQueue c { s with pc := pc } made issued rung executed posted taken :=
  ⟨h.configured, h.csts, h.sqTail, h.sqHead, h.history, h.pending, h.cqs, h.sqs, h.tail, h.head, h.phase,
    h.flags, h.rbuf, h.ring, h.cids, h.pages, h.made_le⟩

theorem Configured.enabled {K : Controller} (h : Configured c K) : K.enabled = true := by
  rw [Controller.enabled, h.cc]
  decide

theorem Configured.sizes {K : Controller} (h : Configured c K) : K.asqs = aqd ∧ K.acqs = aqd := by
  rw [Controller.asqs, Controller.acqs, h.aqa]
  decide

theorem AdminQueue.posted_length (h : AdminQueue c s made issued rung executed posted taken) :
    s.ctrl.posted.length = posted := by
  rw [h.history, List.length_map, List.length_range]

/-- Memory may change outside the pages of the queue pairs. -/
theorem AdminQueue.of_mem (h : AdminQueue c s made issued rung executed posted taken) {mem : ℕ → ℕ}
    (hmem : ∀ q ≤ c.nCore, ∀ w < pageWords, c.seen q mem w = c.seen q s.mem w) :
    AdminQueue c { s with mem := mem } made issued rung executed posted taken := by
  have h0 := hmem 0 (Nat.zero_le _)
  refine ⟨h.configured, h.csts, h.sqTail, h.sqHead, h.history, h.pending, h.cqs, h.sqs, h.tail, h.head,
    h.phase, h.flags, h.rbuf, ?_, ?_, ?_, h.made_le⟩
  · refine h.ring.congr (by decide) fun i hi => ?_
    rw [aqd] at hi
    have hw : 4 * i + 3 < pageWords := by rw [pageWords]; omega
    simp only [cqSlot, cqeCid, cqeP, h0 _ hw]
  · intro i hi
    have hlt := hi
    rw [aqd] at hlt
    dsimp only
    rw [h0 _ (by rw [sqOffset_eq, pageWords]; omega)]
    exact h.cids i hi
  · intro q hq hlt w hw
    have hle := h.made_le
    rw [InitConfig.nq] at hle
    dsimp only
    rw [hmem q (by omega) w hw]
    exact h.pages q hq hlt w hw

/-- A controller that is ready stays as it is. -/
theorem settle_ready {K : Controller} (h : Configured c K) (hc : K.csts = 1) : K.settle = K := by
  rw [Controller.settle, if_pos h.enabled, hc, if_neg Nat.one_ne_zero]

/-- `Identify` stores its data outside the pages of the queue pairs. -/
theorem seen_transfer (hv : c.Valid) (hk : k.Ok c) (he : k.Sent c (s.ctrl.entry s.mem)) (x : ℕ → ℕ)
    {q w : ℕ} (hq : q ≤ c.nCore) (hw : w < pageWords) :
    c.seen q (s.ctrl.transfer s.mem x) w = c.seen q s.mem w := by
  have hopc := he.opc
  cases k with
  | identify =>
    have hprp : (s.ctrl.entry s.mem).prp1 = c.pa (.buf4k 0 0) := he.prp1.trans (adminBufPa_zero c)
    rw [Controller.transfer]
    split_ifs with hid
    · rw [hprp]
      have hf : Within 1024 fun (m : ℕ → ℕ) w => if w < 1024 then x w else m w :=
        fun _ _ hw => if_neg (Nat.not_lt.mpr hw)
      exact hv.seen_other hq (p := .buf4k 0 0) ⟨Nat.zero_le _, n2mbPage_pos _⟩ nofun
        (hf.mono (by decide)) hw
    · rfl
  | createCq qid =>
    have hop : (s.ctrl.entry s.mem).opc = 0x5 := hopc
    rw [Controller.transfer, if_neg fun h => absurd (hop.symm.trans h.1) (by decide)]
  | createSq qid =>
    have hop : (s.ctrl.entry s.mem).opc = 0x1 := hopc
    rw [Controller.transfer, if_neg fun h => absurd (hop.symm.trans h.1) (by decide)]

/-- The controller executes the command that was submitted. -/
theorem AdminQueue.exec (h : AdminQueue c s made issued rung k.no k.no taken) (hv : c.Valid)
    (hk : k.Ok c) (he : k.Sent c (s.ctrl.entry s.mem)) (x : ℕ → ℕ) :
    AdminQueue c { s with mem := s.ctrl.transfer s.mem x, ctrl := s.ctrl.exec c s.mem } made issued rung
      (k.no + 1) k.no taken := by
  have hseen : ∀ q ≤ c.nCore, ∀ w < pageWords, c.seen q (s.ctrl.transfer s.mem x) w = c.seen q s.mem w :=
    fun q hq w hw => seen_transfer hv hk he x hq hw
  have hm := h.of_mem hseen
  have hperform := perform_sent hv hk he
    (K := { s.ctrl with sqHead := (s.ctrl.sqHead + 1) % s.ctrl.asqs }) h.configured.cc h.cqs h.sqs
  have hexec : s.ctrl.exec c s.mem =
      { s.ctrl with
        sqHead := (s.ctrl.sqHead + 1) % s.ctrl.asqs, pending := some (k.no % aqd, true)
        cqs := createdCqs c (k.no + 1), sqs := createdSqs c (k.no + 1) } := by
    rw [Controller.exec]
    dsimp only
    rw [hperform, he.cid]
  rw [hexec]
  refine ⟨⟨h.configured.cc, h.configured.asq, h.configured.acq, h.configured.aqa, h.configured.refused⟩,
    h.csts, h.sqTail, ?_, h.history, ?_, rfl, rfl, h.tail, h.head, h.phase, h.flags, h.rbuf, hm.ring, hm.cids,
    hm.pages, h.made_le⟩
  · dsimp only
    rw [h.sqHead, h.configured.sizes.1, Nat.mod_add_mod]
  · rw [if_pos (Nat.lt_succ_self _)]

/-- The controller completes a command. -/
theorem AdminQueue.post (h : AdminQueue c s made issued rung (posted + 1) posted taken) (hv : c.Valid)
    (x : Cqe) :
    AdminQueue c
      { s with
        mem := inWindow (s.ctrl.acq / 4 + 4 * (s.ctrl.posted.length % s.ctrl.acqs))
          (fun m => writeCqe m 0 (s.ctrl.completion (posted % aqd) true x)) s.mem
        ctrl := { s.ctrl with pending := none, posted := s.ctrl.posted ++ [posted % aqd] } }
      made issued rung (posted + 1) (posted + 1) taken := by
  have hslot : posted % aqd < 8 := Nat.mod_lt _ (by decide)
  have hbase : s.ctrl.acq / 4 + 4 * (s.ctrl.posted.length % s.ctrl.acqs) =
      c.cqPa 0 / 4 + 4 * (posted % aqd) := by
    rw [h.configured.acq, h.posted_length, h.configured.sizes.2]
  rw [hbase, inWindow_add]
  have hwithin : Within pageWords (inWindow (4 * (posted % aqd))
      fun m => writeCqe m 0 (s.ctrl.completion (posted % aqd) true x)) := by
    have hcqe : Within 4 fun m => writeCqe m 0 (s.ctrl.completion (posted % aqd) true x) :=
      fun m w hw => writeCqe_of_ne m _ (by omega)
    exact (hcqe.inWindow _).mono (by rw [pageWords]; omega)
  have hpage : c.seen 0 (inWindow (c.cqPa 0 / 4) (inWindow (4 * (posted % aqd))
      fun m => writeCqe m 0 (s.ctrl.completion (posted % aqd) true x)) s.mem) =
      writeCqe (c.seen 0 s.mem) (posted % aqd) (s.ctrl.completion (posted % aqd) true x) := by
    rw [InitConfig.seen, window_inWindow, inWindow_writeCqe]
    rfl
  refine ⟨⟨h.configured.cc, h.configured.asq, h.configured.acq, h.configured.aqa, h.configured.refused⟩,
    h.csts, h.sqTail, h.sqHead, ?_, ?_, h.cqs, h.sqs, h.tail, h.head, h.phase, h.flags, h.rbuf, ?_, ?_, ?_,
    h.made_le⟩
  · rw [h.history, List.range_succ, List.map_append, List.map_singleton]
  · rw [if_neg (Nat.lt_irrefl _)]
  · dsimp only
    have hpost := h.ring.post (posted % aqd)
    rw [hpage, cqSlot_writeCqe _ _ (lt_trans hslot (by decide))]
    rw [h.posted_length] at hpost
    have htag : (s.ctrl.completion (posted % aqd) true x).p = tag aqd posted := by
      rw [Controller.completion, h.configured.sizes.2, h.posted_length]
    rw [htag]
    exact hpost
  · intro i hi
    dsimp only
    rw [hpage, sqOffset_eq, writeCqe_of_ne _ _ (by omega)]
    exact h.cids i hi
  · intro q hq hlt w hw
    have hle := h.made_le
    rw [InitConfig.nq] at hle
    dsimp only
    refine (hv.seen_other (q := q) (by omega) (p := .sqcq 0) (Nat.zero_le _)
      (fun he => by cases he; omega) hwithin hw).trans (h.pages q hq hlt w hw)

end Controller

/-! ### The host -/

section Host

variable {c : InitConfig} {s : BringUp} {k : AdminCmd} {made issued rung executed posted taken : ℕ}

/-- `new_sqe` finds its slot free. -/
theorem AtRest.claim (h : AtRest c s k.made k.no) :
    s.claim k = { s with
      doneFlag := Function.update s.doneFlag s.sqTail 0
      sqTail := (s.sqTail + 1) % aqd, pc := .fill k (k.no % aqd) } ∧
    AdminQueue c (s.claim k) k.made (k.no + 1) k.no k.no k.no k.no := by
  have hlt : k.no % aqd < aqd := Nat.mod_lt _ (by decide)
  have hfree : s.doneFlag s.sqTail ≠ 0 := by
    rw [h.tail]
    exact fun h0 => Nat.lt_irrefl _ ((h.flags _ hlt).mp h0).1
  have heq : s.claim k = { s with
      doneFlag := Function.update s.doneFlag s.sqTail 0
      sqTail := (s.sqTail + 1) % aqd, pc := .fill k (k.no % aqd) } := by
    rw [BringUp.claim, if_neg hfree, h.tail]
  refine ⟨heq, ?_⟩
  rw [heq]
  refine ⟨h.configured, h.csts, h.sqTail, h.sqHead, h.history, h.pending, h.cqs, h.sqs, ?_, h.head, h.phase,
    fun i hi => ?_, h.rbuf, h.ring, h.cids, h.pages, h.made_le⟩
  · dsimp only
    rw [h.tail, Nat.mod_add_mod]
  · dsimp only
    by_cases he : i = k.no % aqd
    · rw [he, h.tail, Function.update_self]
      exact ⟨fun _ => ⟨Nat.lt_succ_self _, rfl⟩, fun _ => rfl⟩
    · rw [h.tail, Function.update_of_ne he]
      have hnot := h.flags i hi
      exact ⟨fun h0 => absurd (hnot.mp h0).2 he, fun h0 => absurd h0.2 he⟩

theorem fields_bounds (hv : c.Valid) (hk : k.Ok c) :
    (k.fields c (k.no % aqd)).opc < 2 ^ 8 ∧ (k.fields c (k.no % aqd)).prp1 < 2 ^ 64 := by
  cases k with
  | identify =>
    have hlt := hv.pa_lt (p := .buf4k 0 0) ⟨Nat.zero_le _, n2mbPage_pos _⟩
    refine ⟨(by decide : (0x6 : ℕ) < 2 ^ 8), ?_⟩
    change c.adminBufPa 0 < _
    rw [adminBufPa_zero]
    omega
  | createCq q =>
    have hlt := hv.pa_lt (p := .sqcq q) hk.2
    refine ⟨(by decide : (0x5 : ℕ) < 2 ^ 8), ?_⟩
    change c.pa (.sqcq q) < _
    omega
  | createSq q =>
    have hlt := hv.pa_lt (p := .sqcq q) hk.2
    refine ⟨(by decide : (0x1 : ℕ) < 2 ^ 8), ?_⟩
    change c.pa (.sqcq q) + 0x4000 < _
    omega

/-- What the host stores, the controller reads. -/
theorem sent_storeFields (hv : c.Valid) (hk : k.Ok c) {m : ℕ → ℕ}
    (hcid : m 0 / 2 ^ 16 % 2 ^ 16 = k.no % aqd) :
    k.Sent c (readAdmin (storeFields (k.fields c (k.no % aqd)) m)) := by
  obtain ⟨hopc, hprp⟩ := fields_bounds hv hk
  generalize hf : k.fields c (k.no % aqd) = f at hopc hprp
  have h0 : storeFields f m 0 = m 0 / 2 ^ 8 * 2 ^ 8 + f.opc := rfl
  have h6 : storeFields f m 6 = f.prp1 % 2 ^ 32 := rfl
  have h7 : storeFields f m 7 = f.prp1 / 2 ^ 32 % 2 ^ 32 := rfl
  refine ⟨?_, ?_, ?_, ?_, ?_⟩
  · rw [hf, readAdmin, h0]
    dsimp only
    omega
  · rw [readAdmin, h0]
    dsimp only
    omega
  · rw [hf, readAdmin, h6, h7]
    dsimp only
    omega
  · rw [hf]
    rfl
  · intro x hx
    rw [hf] at hx
    change f.cdw11.getD (m 11) = x
    rw [Option.mem_def.mp hx]
    rfl

/-- The host fills the entry. -/
theorem AdminQueue.fill (h : AdminQueue c s k.made (k.no + 1) k.no k.no k.no k.no) (hv : c.Valid)
    (hk : k.Ok c) :
    AdminQueue c (s.fill c k (k.no % aqd)) k.made (k.no + 1) k.no k.no k.no k.no ∧
      k.Sent c ((s.fill c k (k.no % aqd)).ctrl.entry (s.fill c k (k.no % aqd)).mem) := by
  have hcid : k.no % aqd < 8 := Nat.mod_lt _ (by decide)
  obtain ⟨hopc, -⟩ := fields_bounds hv hk
  rw [BringUp.fill, hv.word_getSqe hcid]
  generalize hi : k.no % aqd = i at hcid hopc
  have hwithin : Within pageWords (inWindow (sqOffset + 16 * i) (storeFields (k.fields c i))) := by
    have hf : Within 12 (storeFields (k.fields c i)) := by
      intro m w hw
      unfold storeFields
      split_ifs <;> first | rfl | omega
    refine (hf.inWindow _).mono ?_
    rw [sqOffset_eq, pageWords]
    omega
  rw [inWindow_add]
  have hpage : c.seen 0 (inWindow (c.cqPa 0 / 4) (inWindow (sqOffset + 16 * i) (storeFields (k.fields c i))) s.mem) =
      inWindow (sqOffset + 16 * i) (storeFields (k.fields c i)) (c.seen 0 s.mem) := window_inWindow ..
  refine ⟨⟨h.configured, h.csts, h.sqTail, h.sqHead, h.history, h.pending, h.cqs, h.sqs, h.tail, h.head,
    h.phase, h.flags, h.rbuf, ?_, ?_, ?_, h.made_le⟩, ?_⟩
  · refine h.ring.congr (by decide) fun j hj => ?_
    rw [aqd] at hj
    dsimp only
    rw [hpage]
    have hlow : ¬ sqOffset + 16 * i ≤ 4 * j + 3 := by rw [sqOffset_eq]; omega
    simp only [cqSlot, cqeCid, cqeP, inWindow, if_neg hlow]
  · intro j hj
    have hold := h.cids j hj
    dsimp only
    rw [hpage, inWindow]
    by_cases hle : sqOffset + 16 * i ≤ sqOffset + 16 * j
    · rw [if_pos hle, storeFields]
      by_cases he : j = i
      · rw [he] at hold ⊢
        rw [Nat.sub_self, if_pos rfl, window, Nat.add_zero]
        omega
      · rw [if_neg (by omega), if_neg (by omega), if_neg (by omega), if_neg (by omega), if_neg (by omega),
          if_neg (by omega), window, Nat.add_sub_cancel' hle]
        exact hold
    · rw [if_neg hle]
      exact hold
  · intro q hq hlt w hw
    have hmade := h.made_le
    rw [InitConfig.nq] at hmade
    dsimp only
    refine (hv.seen_other (q := q) (by omega) (p := .sqcq 0) (Nat.zero_le _)
      (fun he => by cases he; omega) hwithin hw).trans (h.pages q hq hlt w hw)
  · have hbase : s.ctrl.asq / 4 + 16 * s.ctrl.sqHead = c.cqPa 0 / 4 + (sqOffset + 16 * i) := by
      have hmod := hv.pa_mod (p := .sqcq 0) (Nat.zero_le _)
      rw [h.configured.asq, h.sqHead, hi, InitConfig.sqPa, InitConfig.cqPa, sqOffset_eq]
      omega
    have hread : window (c.cqPa 0 / 4 + (sqOffset + 16 * i))
        (inWindow (c.cqPa 0 / 4) (inWindow (sqOffset + 16 * i) (storeFields (k.fields c i))) s.mem) =
        storeFields (k.fields c i) (window (sqOffset + 16 * i) (c.seen 0 s.mem)) := by
      rw [← window_window, ← InitConfig.seen, hpage, window_inWindow]
    dsimp only
    rw [Controller.entry, hbase, hread, ← hi]
    refine sent_storeFields hv hk ?_
    rw [window, Nat.add_zero]
    exact h.cids _ (Nat.mod_lt _ (by decide))

/-- The host rings the doorbell. -/
theorem AdminQueue.doorbell (h : AdminQueue c s k.made (k.no + 1) k.no k.no k.no k.no) :
    AdminQueue c (s.doorbell k (k.no % aqd)) k.made (k.no + 1) (k.no + 1) k.no k.no k.no ∧
      (s.doorbell k (k.no % aqd)).ctrl.entry (s.doorbell k (k.no % aqd)).mem = s.ctrl.entry s.mem := by
  have hlt : s.sqTail < aqd := by
    rw [h.tail]
    exact Nat.mod_lt _ (by decide)
  have hrefused : (s.ctrl.refused || s.ctrl.csts != 1 || decide (s.ctrl.asqs ≤ s.sqTail)) = false := by
    rw [h.configured.refused, h.csts, h.configured.sizes.1, decide_eq_false (Nat.not_le.mpr hlt)]
    rfl
  have heq : s.ctrl.write32 0x1000 s.sqTail = { s.ctrl with sqTail := s.sqTail, refused := false } := by
    rw [← hrefused]
    rfl
  rw [BringUp.doorbell, heq]
  exact ⟨⟨⟨h.configured.cc, h.configured.asq, h.configured.acq, h.configured.aqa, rfl⟩, h.csts, h.tail,
    h.sqHead, h.history, h.pending, h.cqs, h.sqs, h.tail, h.head, h.phase, h.flags, h.rbuf, h.ring, h.cids,
    h.pages, h.made_le⟩, rfl⟩

/-- What `check_cq` reads at its head. -/
theorem AdminQueue.cqe (h : AdminQueue c s made issued rung executed posted taken) (hv : c.Valid) :
    window (c.word (c.getCqe 0 s.cqHead)) s.mem = window (4 * (taken % aqd)) (c.seen 0 s.mem) := by
  have hlt : taken % aqd < aqd := Nat.mod_lt _ (by decide)
  rw [h.head, hv.word_getCqe hlt, InitConfig.seen, window_window]

theorem AdminQueue.arrived_iff (h : AdminQueue c s made issued rung executed posted taken) (hv : c.Valid)
    (hle : taken ≤ posted) (hroom : posted ≤ taken + aqd) :
    cqeP (window (c.word (c.getCqe 0 s.cqHead)) s.mem) 0 = s.cqPhase ↔ taken < posted := by
  have hiff := h.ring.tag_iff (by decide) (hle.trans_eq h.posted_length.symm)
    (h.posted_length.trans_le hroom)
  rw [h.posted_length] at hiff
  rw [h.cqe hv, h.phase, ← hiff, ← cqSlot_window]

/-- The completion at the head is that of the next command. -/
theorem AdminQueue.cqe_cid (h : AdminQueue c s made issued rung executed posted taken) (hv : c.Valid)
    (hlt : taken < posted) (hroom : posted ≤ taken + aqd) :
    cqeCid (window (c.word (c.getCqe 0 s.cqHead)) s.mem) 0 = taken % aqd := by
  have hfresh := h.ring.fresh (c := taken) (hlt.trans_eq h.posted_length.symm)
    (h.posted_length.trans_le hroom)
  rw [h.cqe hv]
  have hcid := congrArg Prod.fst ((cqSlot_window (c.seen 0 s.mem) (taken % aqd)).trans hfresh)
  refine hcid.trans ?_
  simp only [h.history, List.getElem_map, List.getElem_range]

/-- The host stores its head to the doorbell. -/
theorem AdminQueue.head_doorbell (h : AdminQueue c s made issued rung executed posted taken) :
    s.ctrl.write32 0x1004 s.cqHead = s.ctrl := by
  have hlt : s.cqHead < aqd := by
    rw [h.head]
    exact Nat.mod_lt _ (by decide)
  have hrefused : (s.ctrl.refused || s.ctrl.csts != 1 || decide (s.ctrl.acqs ≤ s.cqHead)) =
      s.ctrl.refused := by
    rw [h.configured.refused, h.csts, h.configured.sizes.2, decide_eq_false (Nat.not_le.mpr hlt)]
    rfl
  rw [Controller.write32, if_neg (by decide), if_neg (by decide), if_neg (by decide), if_pos rfl, hrefused]

/-- A completion is consumed. -/
theorem AdminQueue.mark (h : AdminQueue c s made (taken + 1) rung executed posted taken)
    (back : InitCaller) :
    AdminQueue c (s.mark back (taken % aqd)) made (taken + 1) rung executed posted (taken + 1) ∧
      (s.mark back (taken % aqd)).doneFlag (taken % aqd) = 1 := by
  rw [BringUp.mark]
  refine ⟨⟨h.configured, h.csts, h.sqTail, h.sqHead, h.history, h.pending, h.cqs, h.sqs, h.tail, ?_, ?_,
    fun i hi => ?_, h.rbuf, h.ring, h.cids, h.pages, h.made_le⟩, Function.update_self ..⟩
  · dsimp only
    rw [h.head]
    exact nextHead_mod (by decide) _
  · dsimp only
    rw [h.head, h.phase]
    exact nextPhase_tag (by decide) _
  · dsimp only
    have hold := h.flags i hi
    by_cases he : i = taken % aqd
    · rw [he, Function.update_self]
      exact ⟨fun h0 => absurd h0 Nat.one_ne_zero, fun h0 => absurd h0.1 (Nat.lt_irrefl _)⟩
    · rw [Function.update_of_ne he]
      exact ⟨fun h0 => absurd (hold.mp h0).2 he, fun h0 => absurd h0.1 (Nat.lt_irrefl _)⟩

end Host

/-! ### Waiting for a command -/

section Waiting

variable {c : InitConfig} {s : BringUp} {k : AdminCmd}

theorem Waiting.goto (h : Waiting c s k) (pc : InitPc) : Waiting c { s with pc := pc } k := by
  obtain ⟨e, p, t, hq, h⟩ := h
  exact ⟨e, p, t, hq.goto pc, h⟩

theorem Waiting.of_doorbell (h : AdminQueue c s k.made (k.no + 1) k.no k.no k.no k.no)
    (he : k.Sent c (s.ctrl.entry s.mem)) : Waiting c (s.doorbell k (k.no % aqd)) k := by
  obtain ⟨hq, hentry⟩ := h.doorbell
  refine ⟨_, _, _, hq, Nat.le_refl _, Nat.le_refl _, Nat.le_refl _, Nat.le_succ _, fun _ => ?_, fun h => ?_⟩
  · rw [hentry]
    exact he
  · omega

theorem lt_mod_ne {a b : ℕ} (h : a % aqd ≠ b % aqd) : a ≠ b := fun he => h (he ▸ rfl)

theorem succ_mod_ne (n : ℕ) : n % aqd ≠ (n + 1) % aqd := by
  rw [aqd]
  omega

/-- The controller is done with the command when it has executed and completed all it was given. -/
theorem AdminQueue.completed {executed posted taken : ℕ}
    (h : AdminQueue c s k.made (k.no + 1) (k.no + 1) executed posted taken) (hle : posted ≤ executed)
    (hexec : k.no ≤ executed ∧ executed ≤ k.no + 1) (hpend : s.ctrl.pending = none)
    (heq : s.ctrl.sqHead = s.ctrl.sqTail) : executed = k.no + 1 ∧ posted = k.no + 1 := by
  have hge : ¬ posted < executed := fun hlt => by
    have hp := h.pending
    rw [hpend, if_pos hlt] at hp
    cases hp
  have hne : executed ≠ k.no := by
    intro he
    rw [h.sqHead, h.sqTail, he] at heq
    exact succ_mod_ne _ heq
  omega

/-- A test of the phase bit finds the completion of the command, or the host waits on; that it does
only until the controller is done. -/
theorem Waiting.testPhase (h : Waiting c s k) (hv : c.Valid) (again : Bool) :
    (s.testPhase c (.reqAndWait k (k.no % aqd)) again =
        { s with pc := .copy (.reqAndWait k (k.no % aqd)) (k.no % aqd) } ∧ Arrived c s k) ∨
      (s.testPhase c (.reqAndWait k (k.no % aqd)) again = { s with pc := .done k (k.no % aqd) } ∧
        (s.ctrl.pending = none → s.ctrl.sqHead = s.ctrl.sqTail → s.doneFlag (k.no % aqd) = 1)) := by
  obtain ⟨e, p, t, hq, h1, h2, h3, h4, -, hflag⟩ := h
  have hroom : p ≤ t + aqd := by rw [aqd]; omega
  by_cases hlt : t < p
  · refine .inl ?_
    obtain rfl : t = k.no := by omega
    obtain rfl : p = k.no + 1 := by omega
    obtain rfl : e = k.no + 1 := by omega
    refine ⟨?_, hq⟩
    rw [BringUp.testPhase, if_pos ((hq.arrived_iff hv h2 hroom).mpr hlt), hq.cqe_cid hv hlt hroom]
  · refine .inr ⟨?_, fun hpend heq => hflag ?_⟩
    · rw [BringUp.testPhase, if_neg fun hp => hlt ((hq.arrived_iff hv h2 hroom).mp hp), hq.head_doorbell,
        ite_self]
      rfl
    · have := hq.completed h3 ⟨by omega, h4⟩ hpend heq
      omega

theorem Arrived.mark (h : Arrived c s k) (back : InitCaller) : Waiting c (s.mark back (k.no % aqd)) k := by
  obtain ⟨hq, hflag⟩ := AdminQueue.mark h back
  exact ⟨_, _, _, hq, Nat.le_succ _, Nat.le_refl _, Nat.le_refl _, Nat.le_refl _, fun h => by omega, fun _ => hflag⟩

/-- The command is done when its flag is set. -/
theorem Waiting.atRest (h : Waiting c s k) (hdone : s.doneFlag (k.no % aqd) = 1) :
    AtRest c s k.made (k.no + 1) := by
  obtain ⟨e, p, t, hq, h1, h2, h3, h4, -, -⟩ := h
  have ht : t = k.no + 1 := by
    by_contra hne
    obtain rfl : t = k.no := by omega
    have h0 := (hq.flags _ (Nat.mod_lt _ (by decide))).mpr ⟨Nat.lt_succ_self _, rfl⟩
    rw [hdone] at h0
    cases h0
  subst ht
  obtain rfl : p = k.no + 1 := by omega
  obtain rfl : e = k.no + 1 := by omega
  exact hq

theorem Waiting.exec (h : Waiting c s k) (hv : c.Valid) (hk : k.Ok c)
    (hne : s.ctrl.sqHead ≠ s.ctrl.sqTail) (x : ℕ → ℕ) :
    Waiting c { s with mem := s.ctrl.transfer s.mem x, ctrl := s.ctrl.exec c s.mem } k := by
  obtain ⟨e, p, t, hq, h1, h2, h3, h4, hsent, -⟩ := h
  rw [hq.sqHead, hq.sqTail] at hne
  have hlt := lt_mod_ne hne
  obtain rfl : e = k.no := by omega
  obtain rfl : p = k.no := by omega
  obtain rfl : t = k.no := by omega
  refine ⟨_, _, _, hq.exec hv hk (hsent rfl) x, Nat.le_refl _, Nat.le_refl _, Nat.le_succ _, Nat.le_refl _,
    fun h => by omega, fun h => by omega⟩

theorem Waiting.post (h : Waiting c s k) (hv : c.Valid) {cid : ℕ} {accepted : Bool}
    (hp : s.ctrl.pending = some (cid, accepted)) (x : Cqe) :
    Waiting c
      { s with
        mem := inWindow (s.ctrl.acq / 4 + 4 * (s.ctrl.posted.length % s.ctrl.acqs))
          (fun m => writeCqe m 0 (s.ctrl.completion cid accepted x)) s.mem
        ctrl := { s.ctrl with pending := none, posted := s.ctrl.posted ++ [cid] } } k := by
  obtain ⟨e, p, t, hq, h1, h2, h3, h4, -, -⟩ := h
  have hpend := hq.pending
  rw [hp] at hpend
  have hlt : p < e := by
    by_contra hge
    rw [if_neg hge] at hpend
    cases hpend
  obtain rfl : p = k.no := by omega
  obtain rfl : e = k.no + 1 := by omega
  obtain rfl : t = k.no := by omega
  rw [if_pos hlt, Option.some.injEq, Prod.mk.injEq] at hpend
  obtain ⟨rfl, rfl⟩ := hpend
  exact ⟨_, _, _, hq.post hv x, Nat.le_refl _, Nat.le_succ _, Nat.le_refl _, Nat.le_refl _,
    fun h => by omega, fun h => by omega⟩

end Waiting

end Pthabt.Nvme
