import Pthabt.Lib.Run
import Mathlib.Logic.Function.Basic

/-! The mutexes of `pthread.c`. `mutex_map` gives the `ABT_mutex` of a mutex; a statically
initialised one gets its own on first use. `pthread_mutex_lock` then returns without locking
it, and two first uses that overlap put two into the map one after the other. The map
operations and the operations of `ABT_mutex` are single steps. -/

namespace Pthabt.Pthread

open Run

/-- The functions that take a mutex. -/
inductive Take where
  | lock
  | trylock
  deriving DecidableEq

/-- Where a ULT is with the mutex `m`: outside, before `mutex_map.find`, in `pthread_mutex_init`
before the creation or the store of the `ABT_mutex`, before `mutex_map[mutex]`, or
before the operation on the `ABT_mutex`. -/
inductive MutexPc where
  | idle
  | find (t : Take) (m : ℕ)
  | create (t : Take) (m : ℕ)
  | store (t : Take) (m x : ℕ)
  | get (t : Take) (m : ℕ)
  | take (t : Take) (m x : ℕ)
  | unlockGet (m : ℕ)
  | unlock (m x : ℕ)

/-- `mutex_map`, the ULT that holds each `ABT_mutex`, the number of these, and for each ULT its
place and the mutexes it has taken: by a call that returned 0 and was not undone. -/
structure Mutexes where
  mutexMap : ℕ → Option ℕ
  abtMutex : ℕ → Option ℕ
  created : ℕ
  pc : ℕ → MutexPc
  taken : ℕ → ℕ → Bool

namespace Mutexes

def goto (s : Mutexes) (u : ℕ) (pc : MutexPc) : Mutexes :=
  { s with pc := Function.update s.pc u pc }

/-- The call of `u` for mutex `m` returns, and leaves it taken or not. -/
def return_ (s : Mutexes) (u m : ℕ) (taken : Bool) : Mutexes :=
  { s with
    pc := Function.update s.pc u .idle
    taken := Function.update s.taken u (Function.update (s.taken u) m taken) }

/-- The store to the map that ends `pthread_mutex_init`. -/
def mapTo (s : Mutexes) (m x : ℕ) : Mutexes :=
  { s with mutexMap := Function.update s.mutexMap m (some x) }

def setHolder (s : Mutexes) (x : ℕ) (h : Option ℕ) : Mutexes :=
  { s with abtMutex := Function.update s.abtMutex x h }

/-- The next step of ULT `u`. A ULT that waits for an `ABT_mutex` stays where it is. -/
def next (u : ℕ) (s : Mutexes) : Outcome Mutexes :=
  match s.pc u with
  | .idle => .ok s
  | .find t m => .ok (s.goto u (if s.mutexMap m = none then .create t m else .get t m))
  | .create t m => .ok ({ s with created := s.created + 1 }.goto u (.store t m s.created))
  | .store .lock m x => .ok ((s.mapTo m x).return_ u m true)
  | .store .trylock m x => .ok ((s.mapTo m x).goto u (.get .trylock m))
  | .get t m =>
    match s.mutexMap m with
    | some x => .ok (s.goto u (.take t m x))
    | none => .fault
  | .take .lock m x =>
    if s.abtMutex x = none then .ok ((s.setHolder x (some u)).return_ u m true) else .ok s
  | .take .trylock m x =>
    if s.abtMutex x = none then .ok ((s.setHolder x (some u)).return_ u m true)
    else .ok (s.goto u .idle)
  | .unlockGet m =>
    match s.mutexMap m with
    | some x => .ok (s.goto u (.unlock m x))
    | none => .fault
  | .unlock m x => .ok ((s.setHolder x none).return_ u m false)

end Mutexes

/-- A ULT calls a function, or goes on in one. -/
inductive MutexStep where
  | call (t : Take) (u m : ℕ)
  | unlock (u m : ℕ)
  | next (u : ℕ)

def MutexStep.step : MutexStep → Mutexes → Outcome Mutexes
  | .call t u m, s => .ok (s.goto u (.find t m))
  | .unlock u m, s => .ok (s.goto u (.unlockGet m))
  | .next u, s => s.next u

/-- A ULT does one thing at a time, and unlocks what it has taken. -/
def MutexStep.Admissible : MutexStep → Mutexes → Prop
  | .call _ u _, s => s.pc u = .idle
  | .unlock u m, s => s.pc u = .idle ∧ s.taken u m = true
  | .next _, _ => True

/-- At most one ULT has taken each mutex. -/
def Exclusive (s : Mutexes) : Prop :=
  ∀ m u v, s.taken u m = true → s.taken v m = true → u = v

/-- `pthread_mutex_lock` finds its mutex in the map, and `pthread_mutex_init` does not replace an
`ABT_mutex` that is there. -/
def MutexStep.Mapped : MutexStep → Mutexes → Prop
  | .next u, s =>
    match s.pc u with
    | .find .lock m => s.mutexMap m ≠ none
    | .store _ m _ => s.mutexMap m = none
    | _ => True
  | _, _ => True

/-- No ULT has begun; the initialised mutexes have their own `ABT_mutex` each. -/
structure Begin (s : Mutexes) : Prop where
  idle : ∀ u, s.pc u = .idle
  untaken : ∀ u m, s.taken u m = false
  lt : ∀ m x, s.mutexMap m = some x → x < s.created
  inj : ∀ m k x, s.mutexMap m = some x → s.mutexMap k = some x → m = k

/-- What the place of a ULT says. -/
def Place (s : Mutexes) (u : ℕ) : MutexPc → Prop
  | .create t _ => t = .trylock
  | .store t _ x => t = .trylock ∧ x < s.created ∧ ∀ k, s.mutexMap k ≠ some x
  | .get _ m => s.mutexMap m ≠ none
  | .take _ m x => s.mutexMap m = some x
  | .unlockGet m => s.taken u m = true
  | .unlock m x => s.taken u m = true ∧ s.mutexMap m = some x
  | _ => True

/-- No two ULTs store the same `ABT_mutex` to the map. -/
def StoresOwn (pc : ℕ → MutexPc) : Prop :=
  ∀ u v t t' m k x, pc u = .store t m x → pc v = .store t' k x → u = v

/-- Invariant of mapped runs: a taken mutex has an `ABT_mutex` that the same ULT holds. -/
structure MapInv (s : Mutexes) : Prop where
  lt : ∀ m x, s.mutexMap m = some x → x < s.created
  inj : ∀ m k x, s.mutexMap m = some x → s.mutexMap k = some x → m = k
  holder : ∀ u m, s.taken u m = true → ∃ x, s.mutexMap m = some x ∧ s.abtMutex x = some u
  own : StoresOwn s.pc
  place : ∀ u, Place s u (s.pc u)

theorem MapInv.exclusive {s : Mutexes} (h : MapInv s) : Exclusive s := by
  intro m u v hu hv
  obtain ⟨x, hx, hxu⟩ := h.holder u m hu
  obtain ⟨y, hy, hyv⟩ := h.holder v m hv
  rw [hx, Option.some.injEq] at hy
  rw [← hy, hxu, Option.some.injEq] at hyv
  exact hyv

theorem Begin.inv {s : Mutexes} (h : Begin s) : MapInv s where
  lt := h.lt
  inj := h.inj
  holder u m hu := by rw [h.untaken] at hu; cases hu
  own u v t t' m k x hu := by rw [h.idle] at hu; cases hu
  place u := by rw [h.idle]; trivial

/-! ### Steps -/

section Steps

variable {s : Mutexes} {u : ℕ}

theorem StoresOwn.update {pc : ℕ → MutexPc} (h : StoresOwn pc) {p : MutexPc}
    (hp : ∀ t m x, p = .store t m x → ∀ v t' k, pc v ≠ .store t' k x) :
    StoresOwn (Function.update pc u p) := by
  intro v w t t' m k x hv hw
  by_cases hvu : v = u
  · by_cases hwu : w = u
    · rw [hvu, hwu]
    · rw [hvu, Function.update_self] at hv
      rw [Function.update_of_ne hwu] at hw
      exact absurd hw (hp t m x hv w t' k)
  · rw [Function.update_of_ne hvu] at hv
    by_cases hwu : w = u
    · rw [hwu, Function.update_self] at hw
      exact absurd hv (hp t' k x hw v t m)
    · rw [Function.update_of_ne hwu] at hw
      exact h v w t t' m k x hv hw

/-- A place keeps its meaning while the map only grows by other `ABT_mutex`es. -/
theorem Place.mono {s s' : Mutexes} {v : ℕ} {pc : MutexPc} (h : Place s v pc)
    (hmap : ∀ m x, s.mutexMap m = some x → s'.mutexMap m = some x)
    (hnew : ∀ t m x, pc = .store t m x → ∀ k, s'.mutexMap k = some x → s.mutexMap k = some x)
    (hcreated : s.created ≤ s'.created) (htaken : s'.taken v = s.taken v) : Place s' v pc := by
  cases pc with
  | store t m x =>
    obtain ⟨ht, hlt, hno⟩ := h
    exact ⟨ht, by omega, fun k hk => hno k (hnew t m x rfl k hk)⟩
  | get t m =>
    obtain ⟨x, hx⟩ := Option.ne_none_iff_exists'.mp h
    exact Option.ne_none_iff_exists'.mpr ⟨x, hmap m x hx⟩
  | take t m x => exact hmap m x h
  | unlockGet m =>
    change s'.taken v m = true
    rw [htaken]
    exact h
  | unlock m x =>
    refine ⟨?_, hmap m x h.2⟩
    rw [htaken]
    exact h.1
  | _ => exact h

/-- The places after ULT `u` went to one and left the map as it was. -/
theorem places_update {s' : Mutexes} {pc : MutexPc} (h : ∀ v, Place s v (s.pc v))
    (hpc : s'.pc = Function.update s.pc u pc) (hself : Place s' u pc)
    (hmap : s'.mutexMap = s.mutexMap) (hcreated : s.created ≤ s'.created)
    (htaken : ∀ v, v ≠ u → s'.taken v = s.taken v) : ∀ v, Place s' v (s'.pc v) := by
  intro v
  rw [hpc]
  by_cases hv : v = u
  · subst hv
    rwa [Function.update_self]
  · rw [Function.update_of_ne hv]
    exact (h v).mono (fun _ _ hx => by rwa [hmap]) (fun _ _ _ _ _ hk => by rwa [← hmap]) hcreated
      (htaken v hv)

/-- One ULT goes somewhere, with no other effect. -/
theorem MapInv.goto (h : MapInv s) {pc : MutexPc} (hplace : Place s u pc)
    (hpc : ∀ t m x, pc ≠ .store t m x) : MapInv (s.goto u pc) := by
  refine ⟨h.lt, h.inj, h.holder, h.own.update fun t m x hp => absurd hp (hpc t m x), ?_⟩
  refine places_update h.place rfl ?_ rfl (Nat.le_refl _) fun _ _ => rfl
  exact hplace.mono (fun _ _ hx => hx) (fun _ _ _ _ _ hk => hk) (Nat.le_refl _) rfl

/-- `pthread_mutex_init` creates an `ABT_mutex`. -/
theorem MapInv.create (h : MapInv s) (m : ℕ) :
    MapInv ({ s with created := s.created + 1 }.goto u (.store .trylock m s.created)) := by
  refine ⟨fun k x hx => Nat.lt_succ_of_lt (h.lt k x hx), h.inj, h.holder, h.own.update ?_, ?_⟩
  · intro t k x hp v t' l hv
    have hplace := h.place v
    rw [hv] at hplace
    have hlt := hplace.2.1
    cases hp
    omega
  · refine places_update h.place rfl ⟨rfl, Nat.lt_succ_self _, fun k hk => ?_⟩ rfl (Nat.le_succ _)
      fun _ _ => rfl
    have hlt := h.lt k s.created hk
    omega

/-- The map with one more entry. -/
theorem mapTo_eq_some {m x k y : ℕ} (hk : (s.mapTo m x).mutexMap k = some y) :
    k = m ∧ y = x ∨ s.mutexMap k = some y := by
  unfold Mutexes.mapTo at hk
  by_cases hkm : k = m
  · subst hkm
    simp only [Function.update_self, Option.some.injEq] at hk
    exact Or.inl ⟨rfl, hk.symm⟩
  · simp only [Function.update_of_ne hkm] at hk
    exact Or.inr hk

theorem mapTo_of_some {m x k y : ℕ} (hnone : s.mutexMap m = none) (hk : s.mutexMap k = some y) :
    (s.mapTo m x).mutexMap k = some y := by
  have hkm : k ≠ m := by
    rintro rfl
    rw [hnone] at hk
    cases hk
  exact (Function.update_of_ne hkm ..).trans hk

/-- The new `ABT_mutex` goes to a mutex that had none. -/
theorem MapInv.mapTo (h : MapInv s) {m x : ℕ} (hpc : s.pc u = .store .trylock m x)
    (hnone : s.mutexMap m = none) : MapInv ((s.mapTo m x).goto u (.get .trylock m)) := by
  have hp := h.place u
  rw [hpc] at hp
  obtain ⟨-, hlt, hno⟩ := hp
  refine ⟨?_, ?_, ?_, h.own.update fun t k y he => (by cases he), ?_⟩
  · intro k y hk
    rcases mapTo_eq_some hk with ⟨-, rfl⟩ | hk
    · exact hlt
    · exact h.lt k y hk
  · intro k l y hk hl
    rcases mapTo_eq_some hk with ⟨rfl, rfl⟩ | hk'
    · rcases mapTo_eq_some hl with ⟨rfl, -⟩ | hl'
      · rfl
      · exact absurd hl' (hno l)
    · rcases mapTo_eq_some hl with ⟨rfl, rfl⟩ | hl'
      · exact absurd hk' (hno k)
      · exact h.inj k l y hk' hl'
  · intro v k hv
    obtain ⟨y, hy, hyv⟩ := h.holder v k hv
    exact ⟨y, mapTo_of_some hnone hy, hyv⟩
  · intro v
    change Place _ v (Function.update s.pc u (.get .trylock m) v)
    by_cases hv : v = u
    · subst hv
      rw [Function.update_self]
      change Function.update s.mutexMap m (some x) m ≠ none
      simp
    · rw [Function.update_of_ne hv]
      refine (h.place v).mono (fun k y hk => mapTo_of_some hnone hk) (fun t k y hvpc l hl => ?_)
        (Nat.le_refl _) rfl
      rcases mapTo_eq_some hl with ⟨-, rfl⟩ | hl
      · exact absurd (h.own v u t .trylock k m y hvpc hpc) hv
      · exact hl

/-- What the other ULTs have taken, and `u` of other mutexes, it has taken before. -/
theorem return_taken {m v k : ℕ} {b : Bool} (hne : ¬ (v = u ∧ k = m)) :
    (s.return_ u m b).taken v k = s.taken v k := by
  unfold Mutexes.return_
  by_cases hvu : v = u
  · subst hvu
    have hk : k ≠ m := fun hk => hne ⟨rfl, hk⟩
    simp [hk]
  · simp [hvu]

/-- A free `ABT_mutex` is taken. -/
theorem MapInv.take (h : MapInv s) {m x : ℕ} (hx : s.mutexMap m = some x)
    (hfree : s.abtMutex x = none) : MapInv ((s.setHolder x (some u)).return_ u m true) := by
  refine ⟨h.lt, h.inj, ?_, h.own.update fun t k y he => (by cases he),
    places_update h.place rfl trivial rfl (Nat.le_refl _) fun v hv => Function.update_of_ne hv ..⟩
  intro v k hv
  by_cases hvm : v = u ∧ k = m
  · obtain ⟨rfl, rfl⟩ := hvm
    exact ⟨x, hx, Function.update_self ..⟩
  · rw [return_taken hvm] at hv
    obtain ⟨y, hy, hyv⟩ := h.holder v k hv
    have hne : y ≠ x := by
      rintro rfl
      rw [hfree] at hyv
      cases hyv
    exact ⟨y, hy, (Function.update_of_ne hne ..).trans hyv⟩

/-- The holder frees the `ABT_mutex` of its mutex. -/
theorem MapInv.unlock (h : MapInv s) {m x : ℕ} (htaken : s.taken u m = true)
    (hx : s.mutexMap m = some x) : MapInv ((s.setHolder x none).return_ u m false) := by
  refine ⟨h.lt, h.inj, ?_, h.own.update fun t k y he => (by cases he),
    places_update h.place rfl trivial rfl (Nat.le_refl _) fun v hv => Function.update_of_ne hv ..⟩
  intro v k hv
  have hvm : ¬ (v = u ∧ k = m) := by
    rintro ⟨rfl, rfl⟩
    simp [Mutexes.return_] at hv
  rw [return_taken hvm] at hv
  obtain ⟨y, hy, hyv⟩ := h.holder v k hv
  have hyx : y ≠ x := by
    rintro rfl
    obtain rfl := h.inj k m y hy hx
    exact hvm ⟨h.exclusive k v u hv htaken, rfl⟩
  exact ⟨y, hy, (Function.update_of_ne hyx ..).trans hyv⟩

end Steps

theorem MapInv.next {s : Mutexes} (h : MapInv s) {u : ℕ} (hC : (MutexStep.next u).Mapped s) :
    (s.next u).Safe MapInv := by
  have hp := h.place u
  unfold MutexStep.Mapped at hC
  unfold Mutexes.next
  cases hpc : s.pc u with
  | idle => exact h
  | find t m =>
    have hlock : t = .lock → s.mutexMap m ≠ none := by
      rintro rfl
      simpa only [hpc] using hC
    rw [Outcome.safe_ok]
    split_ifs with hnone
    · refine h.goto ?_ (by simp)
      cases t with
      | lock => exact absurd hnone (hlock rfl)
      | trylock => rfl
    · exact h.goto hnone (by simp)
  | create t m =>
    rw [hpc] at hp
    obtain rfl : t = .trylock := hp
    exact h.create m
  | store t m x =>
    have hnone : s.mutexMap m = none := by simpa only [hpc] using hC
    rw [hpc] at hp
    obtain ⟨rfl, -, -⟩ := hp
    exact h.mapTo hpc hnone
  | get t m =>
    rw [hpc] at hp
    obtain ⟨x, hx⟩ := Option.ne_none_iff_exists'.mp hp
    simp only [hx]
    exact h.goto hx (by simp)
  | take t m x =>
    rw [hpc] at hp
    cases t with
    | lock =>
      dsimp only
      split_ifs with hfree
      · exact h.take hp hfree
      · exact h
    | trylock =>
      dsimp only
      split_ifs with hfree
      · exact h.take hp hfree
      · exact h.goto trivial (by simp)
  | unlockGet m =>
    rw [hpc] at hp
    obtain ⟨x, hx, -⟩ := h.holder u m hp
    simp only [hx]
    exact h.goto ⟨hp, hx⟩ (by simp)
  | unlock m x =>
    rw [hpc] at hp
    exact h.unlock hp.1 hp.2

theorem mapInv_step (o : MutexStep) (s : Mutexes) (h : MapInv s)
    (hA : o.Admissible s ∧ o.Mapped s) : (o.step s).Safe MapInv := by
  obtain ⟨hA, hC⟩ := hA
  cases o with
  | call t u m => exact h.goto trivial (by simp)
  | unlock u m => exact h.goto hA.2 (by simp)
  | next u => exact h.next hC

/-- Every mutex has at most one holder in the runs that lock mapped mutexes only and in which no two
first uses of a mutex overlap. -/
theorem exclusive_of_mapped {s : Mutexes} (hs : Begin s) (steps : List MutexStep)
    (hA : Meets MutexStep.step MutexStep.Admissible steps s)
    (hC : Meets MutexStep.step MutexStep.Mapped steps s) :
    Always MutexStep.step Exclusive steps s :=
  always_of_meets (fun _ h => h.exclusive) mapInv_step hs.inv (hA.and hC)

/-! ### One static mutex -/

/-- No mutex is in the map. -/
def noMutexes : Mutexes := ⟨fun _ => none, fun _ => none, 0, fun _ => .idle, fun _ _ => false⟩

theorem noMutexes_begin : Begin noMutexes :=
  ⟨fun _ => rfl, fun _ _ => rfl, fun _ _ h => (by cases h), fun _ _ _ h => (by cases h)⟩

/-- ULT 0 tries a static mutex first, and ULT 1 locks it after its unlock. -/
theorem trylock_first_exclusive :
    Always MutexStep.step Exclusive
      [.call .trylock 0 0, .next 0, .next 0, .next 0, .next 0, .next 0, .unlock 0 0, .next 0, .next 0,
        .call .lock 1 0, .next 1, .next 1, .next 1]
      noMutexes := by
  refine exclusive_of_mapped noMutexes_begin _ ?_ ?_
  · exact ⟨rfl, trivial, trivial, trivial, trivial, trivial, ⟨rfl, rfl⟩, trivial, trivial, rfl, trivial,
      trivial, trivial, trivial⟩
  · exact ⟨trivial, trivial, trivial, rfl, trivial, trivial, trivial, trivial, trivial, trivial,
      Option.some_ne_none 0, trivial, trivial, trivial⟩

/-- Two ULTs lock a static mutex one after the other. -/
def staticRun : List MutexStep :=
  [.call .lock 0 0, .next 0, .next 0, .next 0, .call .lock 1 0, .next 1, .next 1, .next 1]

/-- Both have it. -/
theorem static_not_exclusive :
    Meets MutexStep.step MutexStep.Admissible staticRun noMutexes ∧
      ¬ Always MutexStep.step Exclusive staticRun noMutexes := by
  refine ⟨⟨rfl, trivial, trivial, trivial, rfl, trivial, trivial, trivial, trivial⟩, ?_⟩
  rintro ⟨-, -, -, -, -, -, -, -, h⟩
  exact absurd (h 0 0 1 rfl rfl) (by decide)

end Pthabt.Pthread
