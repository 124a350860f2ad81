import Pthabt.IoUring.Batch

/-! The identifier of a request is its slot, which is taken again `IO_URING_QD` requests later
whether or not the request was completed by then. -/

namespace Pthabt.IoUring

open Run

/-- Submitted and not completed. -/
def Core.InFlight (s : Core) (n : ℕ) : Prop := n < s.submitted ∧ n ∉ s.completed

/-- The requests in flight have different identifiers; and the ULTs that have left the last
loop waited for requests that were completed. -/
structure Identified (s : Core) : Prop where
  unique : ∀ m n d e, s.InFlight m → s.InFlight n → s.sqes[m]? = some d → s.sqes[n]? = some e →
    d.userData = e.userData → m = n
  finished : ∀ n ∈ s.finished, n ∈ s.completed

/-- The completion of the request that had the slot before was removed by a check when a new request
takes it. -/
def CoreStep.Recycled : CoreStep → Core → Prop
  | .next u, s =>
    match s.pc u with
    | .loop io off =>
      off < io.count → ioUringQD ≤ s.sqes.length →
        s.sqes.length - ioUringQD ∈ s.completed.take s.cq.khead
    | _ => True
  | _, _ => True

/-! ### Invariant -/

/-- The identifiers are slots, of the requests and of their completions. -/
structure SlotInv (s : Core) : Prop where
  sqes : ∀ (n : ℕ) (e : Sqe), s.sqes[n]? = some e → e.userData = n % ioUringQD
  length : s.cq.posted.length = s.completed.length
  posted : ∀ (k : ℕ) (c : Cqe), s.cq.posted[k]? = some c →
    ∃ n : ℕ, s.completed[k]? = some n ∧ c.userData = n % ioUringQD
  nodup : s.completed.Nodup
  lt : ∀ n ∈ s.completed, n < s.sqes.length
  walk : ∀ u c w, s.pc u = .walk c w → s.running = some u ∧ s.cq.khead ≤ w.head

/-- Of two requests with one slot the completion of the first was removed, and a flag that is set
belongs to completed requests only. -/
structure FlagInv (s : Core) : Prop where
  recycled : ∀ m n, m < n → n < s.sqes.length → m % ioUringQD = n % ioUringQD →
    m ∈ s.completed.take s.cq.khead
  flag : ∀ n, n < s.sqes.length → s.cq.doneFlag (n % ioUringQD) = true → n ∈ s.completed
  finished : ∀ n ∈ s.finished, n ∈ s.completed

structure IdInv (s : Core) : Prop where
  batch : BatchInv s
  slot : SlotInv s
  flag : FlagInv s

theorem IdInv.identified {s : Core} (h : IdInv s) : Identified s where
  unique m n d e hm hn hd he hde := by
    have hslot : m % ioUringQD = n % ioUringQD := by
      rw [← h.slot.sqes m d hd, ← h.slot.sqes n e he, hde]
    have hle := h.batch.submitted_le
    rcases Nat.lt_trichotomy m n with hlt | heq | hlt
    · have hremoved := h.flag.recycled m n hlt (Nat.lt_of_lt_of_le hn.1 hle) hslot
      exact absurd (List.mem_of_mem_take hremoved) hm.2
    · exact heq
    · have hremoved := h.flag.recycled n m hlt (Nat.lt_of_lt_of_le hm.1 hle) hslot.symm
      exact absurd (List.mem_of_mem_take hremoved) hn.2
  finished := h.flag.finished

/-! ### Steps -/

/-- Two numbers that fall into one slot are `q` apart or more. -/
theorem add_le_of_mod_eq {q m n : ℕ} (hmn : m < n) (h : m % q = n % q) :
    m + q ≤ n ∧ m % q = (n - q) % q := by
  have hdvd : q ∣ n - m := Nat.dvd_of_mod_eq_zero (Nat.sub_mod_eq_zero_of_mod_eq h.symm)
  have hle := Nat.le_of_dvd (by omega) hdvd
  exact ⟨by omega, h.trans (Nat.mod_eq_sub_mod (by omega))⟩

theorem not_mem_take {l : List ℕ} (h : l.Nodup) {i k n : ℕ} (hk : l[k]? = some n) (hi : i ≤ k) :
    n ∉ l.take i := by
  intro hn
  obtain ⟨j, hj, hjn⟩ := List.mem_take_iff_getElem.mp hn
  have hjl : j < l.length := by omega
  have hjk : j = k := by
    apply (List.getElem?_inj hjl h).mp
    rw [hk, List.getElem?_eq_getElem hjl, hjn]
  omega

section Steps

variable {s t : Core} {u : ℕ} {pc : UltPc}

/-- ULT `u` goes to `pc`; only its check removes completions. -/
theorem slotInv_goto (h : SlotInv s) (hs : s.Scheduled u) (hpc : t.pc = Function.update s.pc u pc)
    (hsqes : ∀ n e, t.sqes[n]? = some e → e.userData = n % ioUringQD)
    (hlength : s.sqes.length ≤ t.sqes.length) (hposted : t.cq.posted = s.cq.posted)
    (hcompleted : t.completed = s.completed)
    (hwalk : ∀ c w, pc = .walk c w → t.running = some u ∧ t.cq.khead ≤ w.head) : SlotInv t where
  sqes := hsqes
  length := by
    rw [hposted, hcompleted]
    exact h.length
  posted := by
    rw [hposted, hcompleted]
    exact h.posted
  nodup := hcompleted ▸ h.nodup
  lt := by
    rw [hcompleted]
    exact fun n hn => Nat.lt_of_lt_of_le (h.lt n hn) hlength
  walk v c w hv := by
    rw [hpc] at hv
    by_cases hvu : v = u
    · subst hvu
      rw [Function.update_self] at hv
      exact hwalk c w hv
    · -- no other ULT can be in a check while `u` goes on
      rw [Function.update_of_ne hvu] at hv
      obtain ⟨hr, -⟩ := h.walk v c w hv
      rcases hs with hnone | hsome
      · exact absurd (hnone.symm.trans hr) (Option.some_ne_none v).symm
      · exact absurd (Option.some.inj (hr.symm.trans hsome)) hvu

/-- No request is prepared and no flag set. -/
theorem flagInv_of_eq (h : FlagInv s) (hsqes : t.sqes = s.sqes) (hcompleted : t.completed = s.completed)
    (hflag : t.cq.doneFlag = s.cq.doneFlag) (hkhead : s.cq.khead ≤ t.cq.khead)
    (hfinished : ∀ n ∈ t.finished, n ∈ s.completed) : FlagInv t where
  recycled m n hmn hn hslot := by
    rw [hsqes] at hn
    rw [hcompleted]
    exact List.take_subset_take_left _ hkhead (h.recycled m n hmn hn hslot)
  flag := by
    rw [hsqes, hflag, hcompleted]
    exact h.flag
  finished := by
    rw [hcompleted]
    exact hfinished

theorem slotInv_prepare (h : SlotInv s) (io : Io) (off : ℕ) :
    ∀ n e, (s.prepare io off).sqes[n]? = some e → e.userData = n % ioUringQD := by
  intro n e he
  change (s.sqes ++ [_])[n]? = some e at he
  by_cases hn : n < s.sqes.length
  · rw [List.getElem?_append_left hn] at he
    exact h.sqes n e he
  · have hlt := (List.getElem?_eq_some_iff.mp he).1
    rw [List.length_append, List.length_singleton] at hlt
    obtain rfl : n = s.sqes.length := by omega
    rw [List.getElem?_append_right (Nat.le_refl _), Nat.sub_self] at he
    exact (Option.some.inj he) ▸ rfl

/-- The new request finds its slot free, and clears the flag. -/
theorem flagInv_prepare (h : FlagInv s) (io : Io) (off : ℕ)
    (hfree : ioUringQD ≤ s.sqes.length → s.sqes.length - ioUringQD ∈ s.completed.take s.cq.khead) :
    FlagInv (s.prepare io off) where
  recycled m n hmn hn hslot := by
    change n < (s.sqes ++ [_]).length at hn
    rw [List.length_append, List.length_singleton] at hn
    change m ∈ s.completed.take s.cq.khead
    by_cases hlt : n < s.sqes.length
    · exact h.recycled m n hmn hlt hslot
    · obtain rfl : n = s.sqes.length := by omega
      obtain ⟨hle, hprev⟩ := add_le_of_mod_eq hmn hslot
      have hmem := hfree (Nat.le_trans (Nat.le_add_left _ _) hle)
      have hpos : 0 < ioUringQD := by decide
      rcases Nat.eq_or_lt_of_le hle with heq | hlt'
      · rw [← heq, Nat.add_sub_cancel] at hmem
        exact hmem
      · exact h.recycled m (s.sqes.length - ioUringQD) (Nat.lt_sub_of_add_lt hlt') (by omega) hprev
  flag n hn hflag := by
    change Function.update s.cq.doneFlag (s.sqes.length % ioUringQD) false (n % ioUringQD) = true at hflag
    by_cases hslot : n % ioUringQD = s.sqes.length % ioUringQD
    · rw [hslot, Function.update_self] at hflag
      cases hflag
    · rw [Function.update_of_ne hslot] at hflag
      change n < (s.sqes ++ [_]).length at hn
      rw [List.length_append, List.length_singleton] at hn
      refine h.flag n ?_ hflag
      have hne : n ≠ s.sqes.length := fun he => hslot (by rw [he])
      omega
  finished := h.finished

/-- The completion that a check examines belongs to the last request of its slot. -/
theorem flag_examine (hslot : SlotInv s) (h : FlagInv s) {w : Walk} {c : Cqe}
    (hw : s.cq.khead ≤ w.head) (hc : s.cq.posted[w.head]? = some c) :
    ∀ n, n < s.sqes.length → (s.cq.examine w c).1.doneFlag (n % ioUringQD) = true → n ∈ s.completed := by
  obtain ⟨m, hm, hdata⟩ := hslot.posted w.head c hc
  intro n hn hflag
  unfold Cq.examine at hflag
  split_ifs at hflag with hres
  · change Function.update s.cq.doneFlag c.userData true (n % ioUringQD) = true at hflag
    by_cases hsame : n % ioUringQD = c.userData
    · rw [hdata] at hsame
      rcases Nat.lt_trichotomy n m with hlt | rfl | hlt
      · have hmlt := hslot.lt m (List.mem_of_getElem? hm)
        exact List.mem_of_mem_take (h.recycled n m hlt hmlt hsame)
      · exact List.mem_of_getElem? hm
      · have hremoved := h.recycled m n hlt hn hsame.symm
        exact absurd hremoved (not_mem_take hslot.nodup hm hw)
    · rw [Function.update_of_ne hsame] at hflag
      exact h.flag n hn hflag
  · exact h.flag n hn hflag

theorem Cq.posted_iterate (q : Cq) (w : Walk) : (q.iterate w).1.posted = q.posted := by
  unfold Cq.iterate
  cases q.posted[w.head]? with
  | some c =>
    dsimp only [Cq.examine]
    split_ifs <;> rfl
  | none => rfl

theorem Cq.khead_examine (q : Cq) (w : Walk) (c : Cqe) :
    (q.examine w c).1.khead = q.khead ∧ (q.examine w c).2.head = w.head + 1 := by
  unfold Cq.examine
  split_ifs <;> exact ⟨rfl, rfl⟩

end Steps

theorem slotInv_walk {s : Core} {u : ℕ} {c : Chunk} {w : Walk} (h : SlotInv s) (hs : s.Scheduled u)
    (hpc : s.pc u = .walk c w) : (s.next u).Safe SlotInv := by
  obtain ⟨-, hw⟩ := h.walk u c w hpc
  simp only [Core.next, hpc]
  refine slotInv_goto h hs rfl h.sqes (Nat.le_refl _) (s.cq.posted_iterate w) rfl ?_
  intro d w' hwalk
  refine ⟨rfl, ?_⟩
  change (s.cq.iterate w).1.khead ≤ w'.head
  unfold Cq.iterate at hwalk ⊢
  cases hc : s.cq.posted[w.head]? with
  | some e =>
    obtain ⟨hk, hh⟩ := s.cq.khead_examine w e
    rw [hc] at hwalk
    injection hwalk with _ hwalk
    rw [← hwalk, hh]
    exact hk ▸ Nat.le_succ_of_le hw
  | none =>
    rw [hc] at hwalk
    cases hwalk

theorem flagInv_walk {s : Core} {u : ℕ} {c : Chunk} {w : Walk} (hslot : SlotInv s) (h : FlagInv s)
    (hpc : s.pc u = .walk c w) : (s.next u).Safe FlagInv := by
  obtain ⟨-, hw⟩ := hslot.walk u c w hpc
  simp only [Core.next, hpc, Cq.iterate]
  cases hc : s.cq.posted[w.head]? with
  | some e =>
    refine ⟨fun m n hmn hn hsame => ?_, flag_examine hslot h hw hc, h.finished⟩
    have := h.recycled m n hmn hn hsame
    rwa [← (s.cq.khead_examine w e).1] at this
  | none =>
    refine flagInv_of_eq h rfl rfl rfl ?_ h.finished
    change s.cq.khead ≤ (s.cq.advance w).khead
    rw [Cq.khead_advance]
    exact Nat.le_add_right _ _

theorem slotInv_next {s : Core} {u : ℕ} (h : SlotInv s) (hs : s.Scheduled u) :
    (s.next u).After SlotInv := by
  cases hpc : s.pc u with
  | walk c w =>
    have hwalk := slotInv_walk h hs hpc
    cases hx : s.next u with
    | ok t => rw [hx] at hwalk; exact hwalk
    | abort t => trivial
    | fault => trivial
  | loop io off =>
    simp only [Core.next, hpc]
    split_ifs with hoff hfree
    · refine slotInv_goto h hs rfl (slotInv_prepare h io off) ?_ rfl rfl (fun c w hw => by cases hw)
      exact (List.prefix_append ..).length_le
    · trivial
    · exact slotInv_goto h hs rfl h.sqes (Nat.le_refl _) rfl rfl (fun c w hw => by cases hw)
  | idle =>
    simp only [Core.next, hpc]
    exact h
  | check c =>
    simp only [Core.next, hpc]
    refine slotInv_goto h hs rfl h.sqes (Nat.le_refl _) rfl rfl (fun d w hw => ⟨rfl, ?_⟩)
    injection hw with _ hw
    exact hw ▸ Nat.le_refl _
  | _ =>
    simp only [Core.next, hpc]
    split_ifs <;>
      exact slotInv_goto h hs rfl h.sqes (Nat.le_refl _) rfl rfl (fun c w hw => by cases hw)

theorem flagInv_next {s : Core} {u : ℕ} (h : IdInv s)
    (hC : (CoreStep.next u).Recycled s) : (s.next u).After FlagInv := by
  have hf := h.flag
  cases hpc : s.pc u with
  | walk c w =>
    have hwalk := flagInv_walk h.slot hf hpc
    cases hx : s.next u with
    | ok t => rw [hx] at hwalk; exact hwalk
    | abort t => trivial
    | fault => trivial
  | loop io off =>
    simp only [CoreStep.Recycled, hpc] at hC
    simp only [Core.next, hpc]
    split_ifs with hoff hfree
    · have hprepare := flagInv_prepare hf io off (hC hoff)
      exact ⟨hprepare.recycled, hprepare.flag, hprepare.finished⟩
    · trivial
    · exact flagInv_of_eq hf rfl rfl rfl (Nat.le_refl _) hf.finished
  | test c =>
    have hc : c.n < s.sqes.length := by
      have hplace := h.batch.place u
      rw [hpc] at hplace
      exact Nat.lt_of_lt_of_le hplace h.batch.submitted_le
    simp only [Core.next, hpc]
    split_ifs with hflag
    · refine flagInv_of_eq hf rfl rfl rfl (Nat.le_refl _) fun n hn => ?_
      rcases List.mem_append.mp hn with hn | hn
      · exact hf.finished n hn
      · rw [List.mem_singleton.mp hn]
        exact hf.flag c.n hc hflag
    · exact flagInv_of_eq hf rfl rfl rfl (Nat.le_refl _) hf.finished
  | idle =>
    simp only [Core.next, hpc]
    exact hf
  | check c =>
    simp only [Core.next, hpc]
    exact flagInv_of_eq hf rfl rfl rfl (Nat.le_refl _) hf.finished
  | _ =>
    simp only [Core.next, hpc]
    split_ifs <;> exact flagInv_of_eq hf rfl rfl rfl (Nat.le_refl _) hf.finished

theorem slotInv_post {s : Core} {n : ℕ} {res : ℤ} (h : SlotInv s) (hn : n ∉ s.completed) :
    SlotInv (s.post n res) := by
  have hlen := h.length
  unfold Core.post
  cases he : s.sqes[n]? with
  | none => exact h
  | some e =>
    refine ⟨h.sqes, ?_, fun k c hc => ?_, ?_, fun m hm => ?_, h.walk⟩
    · change (s.cq.posted ++ [_]).length = (s.completed ++ [n]).length
      rw [List.length_append, List.length_append, hlen]
      rfl
    · change (s.cq.posted ++ [_])[k]? = some c at hc
      change ∃ m, (s.completed ++ [n])[k]? = some m ∧ c.userData = m % ioUringQD
      by_cases hk : k < s.cq.posted.length
      · rw [List.getElem?_append_left hk] at hc
        rw [List.getElem?_append_left (hlen ▸ hk)]
        exact h.posted k c hc
      · have hlt := (List.getElem?_eq_some_iff.mp hc).1
        rw [List.length_append, List.length_singleton] at hlt
        obtain rfl : k = s.cq.posted.length := by omega
        rw [List.getElem?_append_right (Nat.le_refl _), Nat.sub_self] at hc
        rw [hlen, List.getElem?_append_right (Nat.le_refl _), Nat.sub_self]
        exact ⟨n, rfl, (Option.some.inj hc) ▸ h.sqes n e he⟩
    · change (s.completed ++ [n]).Nodup
      rw [List.nodup_append]
      refine ⟨h.nodup, List.pairwise_singleton _ _, fun m hm l hl => ?_⟩
      rw [List.mem_singleton.mp hl]
      exact fun hmn => hn (hmn ▸ hm)
    · rcases List.mem_append.mp hm with hm | hm
      · exact h.lt m hm
      · rw [List.mem_singleton.mp hm]
        exact (List.getElem?_eq_some_iff.mp he).1

theorem flagInv_post {s : Core} {n : ℕ} {res : ℤ} (h : FlagInv s) : FlagInv (s.post n res) := by
  unfold Core.post
  cases s.sqes[n]? with
  | none => exact h
  | some e =>
    refine ⟨fun m k hmk hk hslot => ?_, fun k hk hflag => ?_, fun k hk => ?_⟩
    · change m ∈ (s.completed ++ [n]).take s.cq.khead
      rw [List.take_append]
      exact List.mem_append_left _ (h.recycled m k hmk hk hslot)
    · exact List.mem_append_left _ (h.flag k hk hflag)
    · exact List.mem_append_left _ (h.finished k hk)

/-- The slots, without a condition on the run. -/
theorem slotInv_step (o : CoreStep) (s : Core) (h : SlotInv s) (hA : o.Admissible s) :
    (o.step s).After SlotInv := by
  cases o with
  | call u io =>
    exact slotInv_goto h hA.1 rfl h.sqes (Nat.le_refl _) rfl rfl (fun c w hw => by cases hw)
  | next u => exact slotInv_next h hA
  | post n res => exact slotInv_post h hA.2

theorem idInv_step (o : CoreStep) (s : Core) (h : IdInv s) (hA : o.Admissible s) (hC : o.Recycled s) :
    (o.step s).Safe IdInv := by
  have hflag : (o.step s).After FlagInv := by
    cases o with
    | call u io => exact flagInv_of_eq h.flag rfl rfl rfl (Nat.le_refl _) h.flag.finished
    | next u => exact flagInv_next h hC
    | post n res => exact flagInv_post h.flag
  have hbatch := batchInv_step o s h.batch hA
  have hslot := slotInv_step o s h.slot hA
  exact ((hbatch.and_after hslot).and_after hflag).mono fun t ht => ⟨ht.1.1, ht.1.2, ht.2⟩

theorem slotInv_init (doneFlag : ℕ → Bool) : SlotInv (.init doneFlag) where
  sqes _ _ he := by cases he
  length := rfl
  posted _ _ hc := by cases hc
  nodup := List.nodup_nil
  lt _ hn := absurd hn List.not_mem_nil
  walk _ _ _ hw := by cases hw

theorem flagInv_init (doneFlag : ℕ → Bool) : FlagInv (.init doneFlag) where
  recycled _ _ _ hn := absurd hn (Nat.not_lt_zero _)
  flag _ hn := absurd hn (Nat.not_lt_zero _)
  finished _ hn := absurd hn List.not_mem_nil

/-- In every run that takes a slot again only after the completion of its last request was
removed, the identifiers in flight are unique and each ULT waits for its own request. -/
theorem identified_of_recycled (doneFlag : ℕ → Bool) (steps : List CoreStep)
    (hA : Meets CoreStep.step CoreStep.Admissible steps (.init doneFlag))
    (hC : Meets CoreStep.step CoreStep.Recycled steps (.init doneFlag)) :
    Always CoreStep.step Identified steps (.init doneFlag) :=
  always_of_meets (fun _ h => h.identified) (fun o s h hs => idInv_step o s h hs.1 hs.2)
    ⟨batchInv_init doneFlag, slotInv_init doneFlag, flagInv_init doneFlag⟩ (hA.and hC)

instance (o : CoreStep) (s : Core) : Decidable (o.Recycled s) :=
  match o with
  | .next u => by
    dsimp only [CoreStep.Recycled]
    split <;> infer_instance
  | .call _ _ | .post _ _ => isTrue trivial

/-- A read and a write that are in flight together. -/
theorem identified_two :
    Always CoreStep.step Identified
      [.call 0 ⟨false, 3, 0, 512, 0⟩, .next 0, .next 0, .next 0, .call 1 ⟨true, 4, 0, 512, 0⟩, .next 1, .next 1,
        .next 1, .next 0, .next 0, .next 0, .post 1 512, .next 0, .next 0, .next 0]
      (.init fun _ => false) :=
  identified_of_recycled _ _ (by decide +kernel) (by decide +kernel)

/-! ### A request that stays in flight -/

/-- A write of `IO_URING_QD` chunks. -/
def longWrite : Io := ⟨true, 4, 0, ioUringQD * 32768, 0⟩

/-- ULT 1 writes a chunk, request `n`: it waits for others, submits, and finds it completed. -/
def chunkRun (n : ℕ) : List CoreStep :=
  [.next 1, .next 1, .next 1, .next 1, .next 1, .next 1, .post n 1, .next 1, .next 1, .next 1]

def chunkRuns : ℕ → List CoreStep
  | 0 => []
  | n + 1 => chunkRuns n ++ chunkRun (n + 1)

/-- ULT 0 reads, its request 0 is submitted, and ULT 1 begins a long write. -/
def inFlightRun : List CoreStep :=
  [.call 0 ⟨false, 3, 0, 512, 0⟩, .next 0, .next 0, .next 0, .next 0, .next 0, .next 0, .next 0, .next 0,
    .call 1 longWrite]

/-- The state of ULT 1 and the core after `n` requests, all but request 0 completed. -/
structure Lapped (n : ℕ) (s : Core) : Prop where
  length : s.sqes.length = n
  submitted : s.submitted = n
  pending : s.pendingReq = 0
  completed : ∀ m ∈ s.completed, 0 < m ∧ m < n
  drained : s.cq.khead = s.cq.posted.length
  pc : s.pc 1 = .loop longWrite (32768 * (n - 1))
  running : s.running = none ∨ s.running = some 1

/-- The state when request `n` is submitted and ULT 1 in a check. -/
structure Asked (n : ℕ) (s : Core) : Prop where
  length : s.sqes.length = n + 1
  submitted : s.submitted = n + 1
  pending : s.pendingReq = 0
  completed : ∀ m ∈ s.completed, 0 < m ∧ m < n
  drained : s.cq.khead = s.cq.posted.length
  sqe : ∃ e, s.sqes[n]? = some e ∧ e.userData = n % ioUringQD
  pc : s.pc 1 = .walk ⟨longWrite, 32768 * (n - 1), n⟩ s.cq.begin_
  running : s.running = some 1

section Lap

variable {s : Core} {u n : ℕ} {c : Chunk}

theorem goto_pc (s : Core) (u : ℕ) (pc : UltPc) : (s.goto u pc).pc u = pc := Function.update_self ..

theorem yield_pc (s : Core) (u : ℕ) (pc : UltPc) : (s.yield_ u pc).pc u = pc :=
  Function.update_self ..

theorem next_loop {io : Io} {off : ℕ} (hpc : s.pc u = .loop io off) (hoff : off < io.count)
    (hfree : s.sqes.length - s.submitted < ioUringQD) :
    (CoreStep.next u).step s = .ok ((s.prepare io off).goto u (.bottom ⟨io, off, s.sqes.length⟩)) := by
  simp only [CoreStep.step, Core.next, hpc, if_pos hoff, if_pos hfree]

theorem next_bottom (hpc : s.pc u = .bottom c) (hth : s.pendingReq < ioUringTH1) :
    (CoreStep.next u).step s =
      .ok ({ s with pendingReq := s.pendingReq + 1 }.goto u (.batch c s.submitCnt 0)) := by
  simp only [CoreStep.step, Core.next, hpc, if_neg (Nat.not_le_of_lt hth)]

theorem next_batch_wait {i : ℕ} (hpc : s.pc u = .batch c s.submitCnt i) (hi : i ≤ ioUringTH2) :
    (CoreStep.next u).step s = .ok (s.yield_ u (.batch c s.submitCnt (i + 1))) := by
  simp only [CoreStep.step, Core.next, hpc, ne_eq, not_true_eq_false, if_false, if_neg (Nat.not_lt_of_le hi)]

theorem next_batch_submit {i : ℕ} (hpc : s.pc u = .batch c s.submitCnt i) (hi : ioUringTH2 < i) :
    (CoreStep.next u).step s = .ok (s.submit.goto u (.check c)) := by
  simp only [CoreStep.step, Core.next, hpc, ne_eq, not_true_eq_false, if_false, if_pos hi]

theorem next_check (hpc : s.pc u = .check c) :
    (CoreStep.next u).step s = .ok (s.goto u (.walk c s.cq.begin_)) := by
  simp only [CoreStep.step, Core.next, hpc]

theorem next_walk_some {w : Walk} {e : Cqe} (hpc : s.pc u = .walk c w)
    (he : s.cq.posted[w.head]? = some e) (hres : 0 < e.res) :
    (CoreStep.next u).step s =
      .ok ({ s with cq := (s.cq.examine w e).1 }.goto u (.walk c ⟨w.head + 1, w.i + 1⟩)) := by
  simp only [CoreStep.step, Core.next, hpc, Cq.iterate, he, Cq.examine, if_pos hres]

theorem next_walk_none {w : Walk} (hpc : s.pc u = .walk c w) (he : s.cq.posted[w.head]? = none) :
    (CoreStep.next u).step s = .ok ({ s with cq := s.cq.advance w }.goto u (.test c)) := by
  simp only [CoreStep.step, Core.next, hpc, Cq.iterate, he]

theorem next_test (hpc : s.pc u = .test c) (hflag : s.cq.doneFlag c.sqeId = true) :
    (CoreStep.next u).step s =
      .ok ({ s with finished := s.finished ++ [c.n] }.goto u (.loop c.io (c.off + c.io.unit))) := by
  simp only [CoreStep.step, Core.next, hpc, if_pos hflag]

theorem post_eq {e : Sqe} {res : ℤ} (he : s.sqes[n]? = some e) :
    s.post n res =
      { s with cq := s.cq.post ⟨e.userData, res⟩, completed := s.completed ++ [n] } := by
  simp only [Core.post, he]

/-- Request `n` is submitted, and its ULT is in a check. -/
theorem asked_of_lapped (h : Lapped n s) (hn : 1 ≤ n) (hlt : n ≤ ioUringQD) :
    ∃ t, Runs CoreStep.step CoreStep.Admissible (List.replicate 6 (.next 1)) s t ∧ Asked n t := by
  have hoff : 32768 * (n - 1) < longWrite.count := by
    change _ < ioUringQD * 32768
    omega
  have hfree : s.sqes.length - s.submitted < ioUringQD := by
    rw [h.length, h.submitted, Nat.sub_self]
    decide
  have hth : s.pendingReq < ioUringTH1 := by
    rw [h.pending]
    decide
  have hlength : (s.sqes ++ [longWrite.prep (32768 * (n - 1)) (s.sqes.length % ioUringQD)]).length =
      n + 1 := by
    rw [List.length_append, h.length]
    rfl
  refine Runs.exists_cons (next_loop h.pc hoff hfree) h.running ?_
  refine Runs.exists_cons (next_bottom (goto_pc ..) ?_) (.inr rfl) ?_
  · exact hth
  refine Runs.exists_cons (next_batch_wait (goto_pc ..) ?_) (.inr rfl) ?_
  · exact Nat.zero_le _
  refine Runs.exists_cons (next_batch_wait (yield_pc ..) ?_) (.inl rfl) ?_
  · exact Nat.le_refl _
  refine Runs.exists_cons (next_batch_submit (yield_pc ..) ?_) (.inl rfl) ?_
  · exact Nat.lt_succ_self _
  refine Runs.exists_cons (next_check (goto_pc ..)) (.inr rfl) ⟨_, .nil _ _, ?_⟩
  exact ⟨hlength, hlength, rfl, h.completed, h.drained,
    ⟨_, by rw [← h.length]; exact List.getElem?_concat_length, by rw [h.length]; rfl⟩,
    by rw [goto_pc, h.length]; rfl, rfl⟩

/-- Request `n` is completed, and its ULT goes on with the next chunk. -/
theorem lapped_of_asked (h : Asked n s) (hn : 1 ≤ n) :
    ∃ t, Runs CoreStep.step CoreStep.Admissible [.post n 1, .next 1, .next 1, .next 1] s t ∧
      Lapped (n + 1) t := by
  obtain ⟨e, he, hdata⟩ := h.sqe
  have hfresh : n ∉ s.completed := fun hmem => Nat.lt_irrefl n (h.completed n hmem).2
  have hpost : (CoreStep.post n 1).step s = .ok _ := congrArg Outcome.ok (post_eq he)
  have hcqe : (s.cq.post ⟨e.userData, 1⟩).posted[s.cq.begin_.head]? = some ⟨e.userData, 1⟩ := by
    change (s.cq.posted ++ [_])[s.cq.khead]? = _
    rw [h.drained]
    exact List.getElem?_concat_length
  have hend : (s.cq.posted ++ [⟨e.userData, 1⟩])[s.cq.khead + 1]? = none := by
    rw [List.getElem?_eq_none_iff, List.length_append, h.drained]
    exact Nat.le_refl _
  refine Runs.exists_cons hpost ⟨?_, hfresh⟩ ?_
  · rw [h.submitted]
    exact Nat.lt_succ_self n
  refine Runs.exists_cons (next_walk_some h.pc hcqe Int.one_pos) (.inr h.running) ?_
  refine Runs.exists_cons (next_walk_none (goto_pc ..) ?_) (.inr rfl) ?_
  · exact hend
  refine Runs.exists_cons (next_test (goto_pc ..) ?_) (.inr rfl) ⟨_, .nil _ _, ?_⟩
  · change Function.update s.cq.doneFlag e.userData true (n % ioUringQD) = true
    rw [hdata, Function.update_self]
  refine ⟨h.length, h.submitted, h.pending, fun m hm => ?_, ?_, ?_, .inr rfl⟩
  · rcases List.mem_append.mp hm with hm | hm
    · obtain ⟨hpos, hlt⟩ := h.completed m hm
      exact ⟨hpos, Nat.lt_succ_of_lt hlt⟩
    · rw [List.mem_singleton.mp hm]
      exact ⟨hn, Nat.lt_succ_self n⟩
  · change s.cq.khead + 1 = (s.cq.posted ++ [_]).length
    rw [List.length_append, h.drained]
    rfl
  · rw [goto_pc]
    change UltPc.loop longWrite (32768 * (n - 1) + 32768) = .loop longWrite (32768 * n)
    congr 1
    omega

theorem lapped_succ (h : Lapped n s) (hn : 1 ≤ n) (hlt : n < ioUringQD) :
    ∃ t, Runs CoreStep.step CoreStep.Admissible (chunkRun n) s t ∧ Lapped (n + 1) t := by
  obtain ⟨t, hask, ht⟩ := asked_of_lapped h hn (Nat.le_of_lt hlt)
  obtain ⟨u, hdone, hu⟩ := lapped_of_asked ht hn
  exact ⟨u, hask.append hdone, hu⟩

/-- The first requests of the long write, one after the other. -/
theorem lapped_chunkRuns (h : Lapped 1 s) : ∀ n, n < ioUringQD →
    ∃ t, Runs CoreStep.step CoreStep.Admissible (chunkRuns n) s t ∧ Lapped (n + 1) t := by
  intro n
  induction n with
  | zero => exact fun _ => ⟨s, .nil _ s, h⟩
  | succ n ih =>
    intro hn
    obtain ⟨t, hruns, ht⟩ := ih (by omega)
    obtain ⟨u, hrun, hu⟩ := lapped_succ ht (Nat.succ_pos n) hn
    exact ⟨u, hruns.append hrun, hu⟩

end Lap

/-- While request 0 is in flight, ULT 1 makes `IO_URING_QD` requests; the last one has slot 0. -/
def lapRun : List CoreStep :=
  inFlightRun ++ (chunkRuns (ioUringQD - 1) ++ List.replicate 6 (.next 1))

theorem lapped_inFlightRun :
    ∃ t, Runs CoreStep.step CoreStep.Admissible inFlightRun (.init fun _ => false) t ∧ Lapped 1 t := by
  refine ⟨_, ⟨by decide +kernel, rfl⟩, ?_⟩
  exact ⟨rfl, rfl, rfl, fun m hm => absurd hm List.not_mem_nil, rfl, rfl, .inr rfl⟩

/-- Two requests in flight have the identifier 0. -/
theorem lap_not_identified :
    Meets CoreStep.step CoreStep.Admissible lapRun (.init fun _ => false) ∧
      ¬ Always CoreStep.step Identified lapRun (.init fun _ => false) := by
  obtain ⟨s, hbegin, hs⟩ := lapped_inFlightRun
  obtain ⟨t, hlap, ht⟩ := lapped_chunkRuns hs (ioUringQD - 1) (by decide)
  obtain ⟨u, hask, hu⟩ := asked_of_lapped ht (by decide) (by decide)
  have hrun := hbegin.append (hlap.append hask)
  refine ⟨hrun.meets, fun h => ?_⟩
  have hslot : SlotInv u :=
    run_inv_of_meets (fun o v v' hv hA hstep => by
      have := slotInv_step o v hv hA
      rwa [hstep] at this) (slotInv_init _) hrun.meets hrun.run
  obtain ⟨e, he, hdata⟩ := hu.sqe
  have hpos : 0 < u.sqes.length := by rw [hu.length]; exact Nat.succ_pos _
  have hd := List.getElem?_eq_getElem hpos
  have hsame : u.sqes[0].userData = e.userData := by
    rw [hslot.sqes 0 _ hd, hdata]
    decide
  have heq := (h.at_end hrun.run).unique 0 (ioUringQD - 1 + 1) _ e ⟨?_, ?_⟩ ⟨?_, ?_⟩ hd he hsame
  · exact absurd heq (by decide)
  · rw [hu.submitted]
    exact Nat.succ_pos _
  · exact fun h0 => Nat.lt_irrefl 0 (hu.completed 0 h0).1
  · rw [hu.submitted]
    exact Nat.lt_succ_self _
  · exact fun hn => Nat.lt_irrefl _ (hu.completed _ hn).2

end Pthabt.IoUring
