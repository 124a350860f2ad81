import Pthabt.Lib.Run
import Pthabt.Lib.Tickets

/-! `MyFIFO` (`myfifo.hpp`): `push` and `pop` advance an index with a compare-and-swap and access
the slot afterwards. Threads interleave at single reads of an index, compare-and-swaps and
accesses to `que`. -/

namespace Pthabt.Mylib

open Lib Run

/-- Where a thread is: outside; in `push`, before the read of `wp`, the test with the read of `rp`,
the compare-and-swap, or the store to `que`; in `pop`, before the read of `rp`, the test with the
read of `wp`, the compare-and-swap, or the load from `que`. The number `p` counts the
compare-and-swaps of the same kind before. -/
inductive FifoPc where
  | idle
  | pushWp (entry : ℕ)
  | pushRp (entry oldWp : ℕ)
  | pushCas (entry oldWp : ℕ)
  | pushQue (entry oldWp p : ℕ)
  | popRp
  | popWp (oldRp : ℕ)
  | popCas (oldRp : ℕ)
  | popQue (oldRp p : ℕ)
  deriving DecidableEq

/-- `wp`, `rp` and `que`, with pointers as numbers and 0 for `nullptr`; the places of the threads;
the pointers that were passed to `push`, that `push` has stored, and that `pop` has taken out;
and which accesses were made. -/
structure Fifo (QD : ℕ) where
  ring : Cyclic QD ℕ
  pc : ℕ → FifoPc
  begun : List ℕ
  pushed : List ℕ
  popped : List ℕ
  tickets : Tickets ℕ

namespace Fifo

variable {QD : ℕ}

def goto (s : Fifo QD) (t : ℕ) (pc : FifoPc) : Fifo QD := { s with pc := Function.update s.pc t pc }

/-- The next step of thread `t`. -/
def next (t : ℕ) (s : Fifo QD) : Fifo QD :=
  match s.pc t with
  | .idle => s
  | .pushWp entry => s.goto t (.pushRp entry s.ring.wp)
  | .pushRp entry oldWp =>
    s.goto t (if (oldWp + 1) % QD = s.ring.rp then .idle else .pushCas entry oldWp)
  | .pushCas entry oldWp =>
    if s.ring.wp = oldWp then
      { s with ring := s.ring.reserve, tickets := s.tickets.reserve }.goto t
        (.pushQue entry oldWp s.tickets.writes)
    else s.goto t (.pushWp entry)
  | .pushQue entry oldWp p =>
    { s with
      ring := s.ring.store oldWp entry
      tickets := s.tickets.store p entry
      pushed := s.pushed ++ [entry] }.goto t .idle
  | .popRp => s.goto t (.popWp s.ring.rp)
  | .popWp oldRp => s.goto t (if oldRp = s.ring.wp then .idle else .popCas oldRp)
  | .popCas oldRp =>
    if s.ring.rp = oldRp then
      { s with ring := s.ring.pop, tickets := s.tickets.take }.goto t (.popQue oldRp s.tickets.reads)
    else s.goto t .popRp
  | .popQue oldRp p =>
    { s with
      tickets := s.tickets.load p
      popped := s.popped ++ [s.ring.cell oldRp] }.goto t .idle

theorem goto_pc_of_ne (s : Fifo QD) (pc : FifoPc) {t u : ℕ} (h : u ≠ t) :
    (s.goto t pc).pc u = s.pc u :=
  Function.update_of_ne h ..

/-- A step of one thread leaves the others where they are. -/
theorem next_pc_of_ne {s : Fifo QD} {t u : ℕ} (h : u ≠ t) : (s.next t).pc u = s.pc u := by
  unfold next
  cases s.pc t with
  | idle => rfl
  | pushCas x q =>
    dsimp only
    split_ifs <;> exact goto_pc_of_ne _ _ h
  | popCas q =>
    dsimp only
    split_ifs <;> exact goto_pc_of_ne _ _ h
  | _ => exact goto_pc_of_ne _ _ h

end Fifo

/-- A thread calls a function, or goes on in it. -/
inductive FifoStep where
  | push (t entry : ℕ)
  | pop (t : ℕ)
  | next (t : ℕ)

section

variable {QD : ℕ}

def FifoStep.step : FifoStep → Fifo QD → Outcome (Fifo QD)
  | .push t entry, s => .ok ({ s with begun := s.begun ++ [entry] }.goto t (.pushWp entry))
  | .pop t, s => .ok (s.goto t .popRp)
  | .next t, s => .ok (s.next t)

/-- A thread is in one call at a time, and the pointers that are pushed are distinct. -/
def FifoStep.Admissible : FifoStep → Fifo QD → Prop
  | .push t entry, s => s.pc t = .idle ∧ entry ∉ s.begun
  | .pop t, s => s.pc t = .idle
  | .next _, _ => True

/-- No entry is invented or duplicated, at most `QD - 1` are held, and when no call is in progress
none is lost. -/
structure Intact (s : Fifo QD) : Prop where
  begun : ∀ x ∈ s.popped, x ≠ 0 → x ∈ s.begun
  once : (s.popped.filter (· ≠ 0)).Nodup
  held : s.tickets.writes ≤ s.tickets.reads + (QD - 1)
  kept : (∀ t, s.pc t = .idle) → (s.pushed : Multiset ℕ) = s.popped + s.ring.entries

/-- A compare-and-swap finds the buffer still not full, or not empty; and the accesses to a slot
come in the order of the compare-and-swaps. -/
def FifoStep.Ordered : FifoStep → Fifo QD → Prop
  | .next t, s =>
    match s.pc t with
    | .pushCas _ oldWp => s.ring.wp = oldWp → (s.ring.wp + 1) % QD ≠ s.ring.rp
    | .popCas oldRp => s.ring.rp = oldRp → s.ring.rp ≠ s.ring.wp
    | .pushQue _ _ p => QD ≤ p → s.tickets.loaded (p - QD) = true
    | .popQue _ p => s.tickets.entry p ≠ none
    | _ => True
  | _, _ => True

/-! ### Invariant -/

namespace FifoPc

/-- The pointer that a call of `push` has to store. -/
def carries : FifoPc → Option ℕ
  | .pushWp entry | .pushRp entry _ | .pushCas entry _ | .pushQue entry _ _ => some entry
  | _ => none

/-- The number of a store that is to be made. -/
def writes : FifoPc → Option ℕ
  | .pushQue _ _ p => some p
  | _ => none

/-- The number of a load that is to be made. -/
def reads : FifoPc → Option ℕ
  | .popQue _ p => some p
  | _ => none

/-- The index in a thread is that of its number. -/
def Slot (QD : ℕ) : FifoPc → Prop
  | .pushQue _ oldWp p => oldWp = p % QD
  | .popQue oldRp p => oldRp = p % QD
  | _ => True

end FifoPc

/-- Invariant of ordered runs. -/
structure FifoInv (s : Fifo QD) : Prop where
  shared : s.tickets.Shared s.ring (fun t => (s.pc t).writes) fun t => (s.pc t).reads
  slot : ∀ t, (s.pc t).Slot QD
  carriers : Distinct fun t => (s.pc t).carries
  carried : ∀ t x, (s.pc t).carries = some x → x ∈ s.begun ∧ ∀ p, s.tickets.entry p ≠ some x
  entries : ∀ p q x, s.tickets.entry p = some x → s.tickets.entry q = some x → p = q
  begun : ∀ p x, s.tickets.entry p = some x → x ∈ s.begun
  pushed : (s.pushed : Multiset ℕ) = s.tickets.stored s.tickets.writes
  popped : (s.popped : Multiset ℕ) = s.tickets.taken

theorem FifoInv.intact {s : Fifo QD} (h : FifoInv s) : Intact s where
  begun x hx _ := by
    have hmem : x ∈ s.tickets.taken := h.popped ▸ Multiset.mem_coe.mpr hx
    obtain ⟨p, -, hp⟩ := (Multiset.mem_filterMap _ _).mp hmem
    split_ifs at hp
    exact h.begun p x hp
  once := by
    apply List.Nodup.filter
    rw [← Multiset.coe_nodup, h.popped]
    refine Multiset.Nodup.filterMap _ (fun p q x hp hq => ?_) (Multiset.nodup_range _)
    rw [Option.mem_def] at hp hq
    split_ifs at hp hq
    exact h.entries p q x hp hq
  held := by
    have := h.shared.fits.lt
    omega
  kept hidle := by
    rw [h.pushed, h.popped]
    refine Tickets.stored_eq h.shared.fits (fun p hp hnone => ?_) (fun p hp => ?_)
    · obtain ⟨t, ht⟩ := (h.shared.writers.iff p).mpr ⟨hp, hnone⟩
      rw [hidle t] at ht
      cases ht
    · rw [← Bool.not_eq_false]
      intro hl
      obtain ⟨t, ht⟩ := (h.shared.readers.iff p).mpr ⟨hp, hl⟩
      rw [hidle t] at ht
      cases ht

/-! ### Steps -/

section Steps

variable {s : Fifo QD} {t : ℕ} {pc : FifoPc}

theorem forall_pc {P : FifoPc → Prop} {g : ℕ → FifoPc} (h : ∀ u, P (g u)) (hpc : P pc) :
    ∀ u, P (Function.update g t pc u) := by
  intro u
  by_cases hu : u = t
  · subst hu
    rwa [Function.update_self]
  · rw [Function.update_of_ne hu]
    exact h u

/-- A thread keeps the pointer it carries, or drops it. -/
theorem carriers_update (h : FifoInv s) (hc : ∀ x, pc.carries = some x → (s.pc t).carries = some x) :
    Distinct fun u => (Function.update s.pc t pc u).carries := by
  rw [proj_update FifoPc.carries]
  refine h.carriers.update fun x u hx hu he => hu ?_
  exact h.carriers u t x he (hc x hx)

theorem carried_update (h : FifoInv s) (hc : ∀ x, pc.carries = some x → (s.pc t).carries = some x) :
    ∀ u x, (Function.update s.pc t pc u).carries = some x →
      x ∈ s.begun ∧ ∀ p, s.tickets.entry p ≠ some x := by
  intro u x
  by_cases hu : u = t
  · subst hu
    rw [Function.update_self]
    exact fun hx => h.carried u x (hc x hx)
  · rw [Function.update_of_ne hu]
    exact h.carried u x

/-- A step that touches neither an index nor a slot. -/
theorem fifoInv_goto (h : FifoInv s) (hw : pc.writes = (s.pc t).writes) (hr : pc.reads = (s.pc t).reads)
    (hslot : pc.Slot QD) (hc : ∀ x, pc.carries = some x → (s.pc t).carries = some x) :
    FifoInv (s.goto t pc) where
  shared := by
    change s.tickets.Shared s.ring (fun u => (Function.update s.pc t pc u).writes)
      fun u => (Function.update s.pc t pc u).reads
    rw [proj_update_eq hw, proj_update_eq hr]
    exact h.shared
  slot := forall_pc h.slot hslot
  carriers := carriers_update h hc
  carried := carried_update h hc
  entries := h.entries
  begun := h.begun
  pushed := h.pushed
  popped := h.popped

/-- A `push` takes a number. -/
theorem fifoInv_reserve (h : FifoInv s) {x q : ℕ} (hpc : s.pc t = .pushCas x q) (hq : s.ring.wp = q)
    (hfull : (s.ring.wp + 1) % QD ≠ s.ring.rp) :
    FifoInv ({ s with ring := s.ring.reserve, tickets := s.tickets.reserve }.goto t
      (.pushQue x q s.tickets.writes)) where
  shared := by
    change s.tickets.reserve.Shared s.ring.reserve (fun u => (Function.update s.pc t _ u).writes)
      fun u => (Function.update s.pc t _ u).reads
    rw [proj_update FifoPc.writes, proj_update_eq (f := FifoPc.reads) (by rw [hpc]; rfl)]
    exact h.shared.reserve (by rw [hpc]; rfl) hfull
  slot := forall_pc h.slot (hq ▸ h.shared.fits.wp)
  carriers := carriers_update (s := s) h (by rw [hpc]; exact fun _ hx => hx)
  carried := carried_update (s := s) h (by rw [hpc]; exact fun _ hx => hx)
  entries := h.entries
  begun := h.begun
  pushed := h.pushed.trans (Tickets.stored_reserve h.shared.fits).symm
  popped := h.popped

/-- A `push` stores its pointer. -/
theorem fifoInv_store (h : FifoInv s) {x q p : ℕ} (hpc : s.pc t = .pushQue x q p)
    (hlap : QD ≤ p → s.tickets.loaded (p - QD) = true) :
    FifoInv ({ s with
      ring := s.ring.store q x
      tickets := s.tickets.store p x
      pushed := s.pushed ++ [x] }.goto t .idle) := by
  have hwrite : (s.pc t).writes = some p := by rw [hpc]; rfl
  obtain ⟨hp, hnone⟩ := h.shared.writer hwrite
  have hslot : q = p % QD := by
    have := h.slot t
    rwa [hpc] at this
  have hcarry : (s.pc t).carries = some x := by rw [hpc]; rfl
  obtain ⟨hbegun, hfresh⟩ := h.carried t x hcarry
  have hentry : ∀ n y, (s.tickets.store p x).entry n = some y →
      n = p ∧ y = x ∨ n ≠ p ∧ s.tickets.entry n = some y := by
    intro n y hn
    by_cases hnp : n = p
    · subst hnp
      rw [Tickets.entry_store] at hn
      exact .inl ⟨rfl, (Option.some.inj hn).symm⟩
    · rw [Tickets.entry_store_of_ne _ x hnp] at hn
      exact .inr ⟨hnp, hn⟩
  constructor
  · change (s.tickets.store p x).Shared (s.ring.store q x) (fun u => (Function.update s.pc t _ u).writes)
      fun u => (Function.update s.pc t _ u).reads
    rw [proj_update FifoPc.writes, proj_update_eq (f := FifoPc.reads) (by rw [hpc]; rfl), hslot]
    exact h.shared.store hwrite hlap x
  · exact forall_pc h.slot trivial
  · exact carriers_update (s := s) h fun y hy => by cases hy
  · intro u y hu
    change (Function.update s.pc t .idle u).carries = some y at hu
    by_cases hut : u = t
    · subst hut
      rw [Function.update_self] at hu
      cases hu
    · rw [Function.update_of_ne hut] at hu
      obtain ⟨hy, hyfresh⟩ := h.carried u y hu
      refine ⟨hy, fun n hn => ?_⟩
      rcases hentry n y hn with ⟨-, rfl⟩ | ⟨-, hold⟩
      · exact hut (h.carriers u t y hu hcarry)
      · exact hyfresh n hold
  · intro m n y hm hn
    rcases hentry m y hm with ⟨hmp, rfl⟩ | ⟨-, hm'⟩
    · rcases hentry n y hn with ⟨hnp, -⟩ | ⟨-, hn'⟩
      · exact hmp.trans hnp.symm
      · exact absurd hn' (hfresh n)
    · rcases hentry n y hn with ⟨-, rfl⟩ | ⟨-, hn'⟩
      · exact absurd hm' (hfresh m)
      · exact h.entries m n y hm' hn'
  · intro n y hn
    rcases hentry n y hn with ⟨-, rfl⟩ | ⟨-, hn⟩
    · exact hbegun
    · exact h.begun n y hn
  · change ((s.pushed ++ [x] : List ℕ) : Multiset ℕ) = (s.tickets.store p x).stored s.tickets.writes
    rw [Tickets.stored_store hp hnone, ← h.pushed, ← Multiset.coe_add, Multiset.add_comm]
    rfl
  · exact h.popped.trans (Tickets.taken_store h.shared.fits hnone x).symm

/-- A `pop` takes a number. -/
theorem fifoInv_take (h : FifoInv s) {q : ℕ} (hpc : s.pc t = .popCas q) (hq : s.ring.rp = q)
    (hempty : s.ring.rp ≠ s.ring.wp) :
    FifoInv ({ s with ring := s.ring.pop, tickets := s.tickets.take }.goto t
      (.popQue q s.tickets.reads)) where
  shared := by
    change s.tickets.take.Shared s.ring.pop (fun u => (Function.update s.pc t _ u).writes)
      fun u => (Function.update s.pc t _ u).reads
    rw [proj_update FifoPc.reads, proj_update_eq (f := FifoPc.writes) (by rw [hpc]; rfl)]
    exact h.shared.take (by rw [hpc]; rfl) hempty
  slot := forall_pc h.slot (hq ▸ h.shared.fits.rp)
  carriers := carriers_update (s := s) h fun x hx => by cases hx
  carried := carried_update (s := s) h fun x hx => by cases hx
  entries := h.entries
  begun := h.begun
  pushed := h.pushed
  popped := h.popped.trans (Tickets.taken_take h.shared.fits).symm

/-- A `pop` loads what was stored with its number. -/
theorem fifoInv_load (h : FifoInv s) {q p : ℕ} (hpc : s.pc t = .popQue q p)
    (hstored : s.tickets.entry p ≠ none) :
    FifoInv ({ s with
      tickets := s.tickets.load p
      popped := s.popped ++ [s.ring.cell q] }.goto t .idle) := by
  have hread : (s.pc t).reads = some p := by rw [hpc]; rfl
  obtain ⟨hp, hl⟩ := h.shared.reader hread
  obtain ⟨x, hx⟩ := Option.ne_none_iff_exists'.mp hstored
  have hslot : q = p % QD := by
    have := h.slot t
    rwa [hpc] at this
  have hcell : s.ring.cell q = x := hslot ▸ h.shared.cell hread hx
  constructor
  · change (s.tickets.load p).Shared s.ring (fun u => (Function.update s.pc t _ u).writes)
      fun u => (Function.update s.pc t _ u).reads
    rw [proj_update FifoPc.reads, proj_update_eq (f := FifoPc.writes) (by rw [hpc]; rfl)]
    exact h.shared.load hread hstored
  · exact forall_pc h.slot trivial
  · exact carriers_update (s := s) h fun y hy => by cases hy
  · exact carried_update (s := s) h fun y hy => by cases hy
  · exact h.entries
  · exact h.begun
  · exact h.pushed
  · change ((s.popped ++ [s.ring.cell q] : List ℕ) : Multiset ℕ) = (s.tickets.load p).taken
    rw [Tickets.taken_load hp hl hx, ← h.popped, ← Multiset.coe_add, Multiset.add_comm, hcell]
    rfl

theorem fifoInv_push (h : FifoInv s) {x : ℕ} (hidle : s.pc t = .idle) (hx : x ∉ s.begun) :
    FifoInv ({ s with begun := s.begun ++ [x] }.goto t (.pushWp x)) where
  shared := by
    change s.tickets.Shared s.ring (fun u => (Function.update s.pc t _ u).writes)
      fun u => (Function.update s.pc t _ u).reads
    rw [proj_update_eq (f := FifoPc.writes) (by rw [hidle]; rfl),
      proj_update_eq (f := FifoPc.reads) (by rw [hidle]; rfl)]
    exact h.shared
  slot := forall_pc h.slot trivial
  carriers := by
    change Distinct fun u => (Function.update s.pc t _ u).carries
    rw [proj_update FifoPc.carries]
    refine h.carriers.update fun y u hy _ hu => hx ?_
    exact Option.some.inj hy ▸ (h.carried u y hu).1
  carried := by
    intro u y hu
    change (Function.update s.pc t (.pushWp x) u).carries = some y at hu
    change y ∈ s.begun ++ [x] ∧ _
    by_cases hut : u = t
    · subst hut
      rw [Function.update_self] at hu
      obtain rfl : x = y := Option.some.inj hu
      exact ⟨List.mem_concat_self, fun p hp => hx (h.begun p x hp)⟩
    · rw [Function.update_of_ne hut] at hu
      obtain ⟨hy, hfresh⟩ := h.carried u y hu
      exact ⟨List.mem_append_left _ hy, hfresh⟩
  entries := h.entries
  begun p y hp := List.mem_append_left _ (h.begun p y hp)
  pushed := h.pushed
  popped := h.popped

end Steps

theorem fifoInv_next {s : Fifo QD} {t : ℕ} (h : FifoInv s) (hC : (FifoStep.next t).Ordered s) :
    FifoInv (s.next t) := by
  unfold Fifo.next
  cases hpc : s.pc t with
  | idle => exact h
  | pushWp x =>
    exact fifoInv_goto h (by rw [hpc]; rfl) (by rw [hpc]; rfl) trivial
      (by rw [hpc]; exact fun _ hx => hx)
  | pushRp x q =>
    dsimp only
    split_ifs
    · exact fifoInv_goto h (by rw [hpc]; rfl) (by rw [hpc]; rfl) trivial
        (fun _ hx => by cases hx)
    · exact fifoInv_goto h (by rw [hpc]; rfl) (by rw [hpc]; rfl) trivial
        (by rw [hpc]; exact fun _ hx => hx)
  | pushCas x q =>
    simp only [FifoStep.Ordered, hpc] at hC
    dsimp only
    split_ifs with hq
    · exact fifoInv_reserve h hpc hq (hC hq)
    · exact fifoInv_goto h (by rw [hpc]; rfl) (by rw [hpc]; rfl) trivial
        (by rw [hpc]; exact fun _ hx => hx)
  | pushQue x q p =>
    simp only [FifoStep.Ordered, hpc] at hC
    exact fifoInv_store h hpc hC
  | popRp =>
    exact fifoInv_goto h (by rw [hpc]; rfl) (by rw [hpc]; rfl) trivial
      (fun _ hx => by cases hx)
  | popWp q =>
    dsimp only
    split_ifs <;>
      exact fifoInv_goto h (by rw [hpc]; rfl) (by rw [hpc]; rfl) trivial
        (fun _ hx => by cases hx)
  | popCas q =>
    simp only [FifoStep.Ordered, hpc] at hC
    dsimp only
    split_ifs with hq
    · exact fifoInv_take h hpc hq (hC hq)
    · exact fifoInv_goto h (by rw [hpc]; rfl) (by rw [hpc]; rfl) trivial
        (fun _ hx => by cases hx)
  | popQue q p =>
    simp only [FifoStep.Ordered, hpc] at hC
    exact fifoInv_load h hpc hC

theorem fifoInv_step (o : FifoStep) (s : Fifo QD) (h : FifoInv s) (hA : o.Admissible s)
    (hC : o.Ordered s) : (o.step s).Safe FifoInv := by
  cases o with
  | push t x => exact fifoInv_push h hA.1 hA.2
  | pop t =>
    have hidle : s.pc t = .idle := hA
    exact fifoInv_goto h (by rw [hidle]; rfl) (by rw [hidle]; rfl) trivial
      (fun _ hx => by cases hx)
  | next t => exact fifoInv_next h hC

/-- The constructor; `que` is not initialised. -/
def myFifo (que : ℕ → ℕ) (hQD : 2 ≤ QD) : Fifo QD where
  ring := ⟨que, 0, 0, by omega, by omega⟩
  pc _ := .idle
  begun := []
  pushed := []
  popped := []
  tickets := ⟨0, 0, fun _ => none, fun _ => false⟩

theorem fifoInv_init (que : ℕ → ℕ) (hQD : 2 ≤ QD) : FifoInv (myFifo que hQD) where
  shared := by
    have hempty := Tickets.ofRing_empty (myFifo que hQD).ring rfl rfl
    have hshared : (Tickets.ofRing (myFifo que hQD).ring).Shared (myFifo que hQD).ring
        (fun _ : ℕ => none) fun _ => none := Tickets.shared_ofRing (myFifo que hQD).ring
    rwa [hempty] at hshared
  slot _ := trivial
  carriers _ _ _ hu := by cases hu
  carried _ _ hu := by cases hu
  entries _ _ _ hp := by cases hp
  begun _ _ hp := by cases hp
  pushed := rfl
  popped := rfl

/-- In every run whose compare-and-swaps and accesses are ordered the buffer keeps its entries. -/
theorem intact_of_ordered (que : ℕ → ℕ) (hQD : 2 ≤ QD) (steps : List FifoStep)
    (hA : Meets FifoStep.step FifoStep.Admissible steps (myFifo que hQD))
    (hC : Meets FifoStep.step FifoStep.Ordered steps (myFifo que hQD)) :
    Always FifoStep.step Intact steps (myFifo que hQD) :=
  always_of_meets (fun _ h => h.intact) (fun o s h hs => fifoInv_step o s h hs.1 hs.2)
    (fifoInv_init que hQD) (hA.and hC)

instance decidableFifoAdmissible (o : FifoStep) (s : Fifo QD) : Decidable (o.Admissible s) :=
  match o with
  | .push t _ => inferInstanceAs (Decidable (s.pc t = .idle ∧ _ ∉ s.begun))
  | .pop t => inferInstanceAs (Decidable (s.pc t = .idle))
  | .next _ => isTrue trivial

instance decidableFifoOrdered (o : FifoStep) (s : Fifo QD) : Decidable (o.Ordered s) :=
  match o with
  | .next t => by
    dsimp only [FifoStep.Ordered]
    split <;> infer_instance
  | .push _ _ | .pop _ => isTrue trivial

end

/-- Two threads push and one pops, one after the other's compare-and-swap. -/
theorem intact_three :
    Always FifoStep.step Intact
      [.push 0 7, .next 0, .push 1 8, .next 1, .next 0, .next 1, .next 0, .next 1, .next 1, .next 1, .next 0,
        .pop 2, .next 2, .next 2, .next 2, .next 2, .next 1]
      (myFifo (fun _ => 0) (show 2 ≤ 3 by decide)) :=
  intact_of_ordered _ _ _ (by decide) (by decide)

/-- A `pop` overtakes the `push` whose number it has taken. -/
def overtakeRun : List FifoStep :=
  [.push 0 7, .next 0, .next 0, .next 0, .pop 1, .next 1, .next 1, .next 1, .next 1, .next 0]

/-- It returns what was in the slot, and the pointer is lost. -/
theorem overtake_not_intact :
    Meets FifoStep.step FifoStep.Admissible overtakeRun (myFifo (fun _ => 0) (Nat.le_refl 2)) ∧
      ¬ Always FifoStep.step Intact overtakeRun (myFifo (fun _ => 0) (Nat.le_refl 2)) := by
  refine ⟨by decide, ?_⟩
  rintro ⟨-, -, -, -, -, -, -, -, -, -, h⟩
  have hkept := h.kept fun t => by
    by_cases h0 : t = 0
    · subst h0
      rfl
    · by_cases h1 : t = 1
      · subst h1
        rfl
      · simp only [Fifo.next_pc_of_ne h0, Fifo.next_pc_of_ne h1, Fifo.goto_pc_of_ne _ _ h0,
          Fifo.goto_pc_of_ne _ _ h1]
        rfl
  exact absurd hkept (by decide)

end Pthabt.Mylib
