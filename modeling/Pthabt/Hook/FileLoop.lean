import Pthabt.Hook.FileInv

/-! The steps of a call of `read_impl` or `write_impl` between its requests: the loop moves on,
a ULT is in a call of the driver, or a drive does something. All of them keep what was
requested so far. -/

namespace Pthabt.Hook

open Lib Run Bytes Myfs Nvme

/-! ### The requests of a read -/

section ReadData

variable {c : IoConfig} {X : ℕ → Byte} {base : ℕ → ℕ} {S : Driver} {io : Io}

/-- A step of the queues at which no request returns. -/
theorem ReadData.next (h : ReadData c X base S io) (hinv : DriverInv c.nvme S) (hc : c.nvme.Valid)
    (ha : c.nvme.Addressed) (hlt : io.core < c.nvme.nCore) {o : DriverStep}
    (hA : o.Admissible c.nvme S) (hcore : o.core c.nvme = io.core)
    (hjob : ∀ r, o.on = .request r →
      ReadJob (c.nvme.qp (o.did c.nvme) io.core) X (S.disk (o.did c.nvme)) r)
    (hring : ∀ did < c.nvme.nd,
      ¬ Rings (S.queue did io.core) ((o.next c.nvme S).queue did io.core)) (call : LoopCall) :
    ReadData c X base (o.next c.nvme S) { io with call := call } where
  reading := (h.reading.next hinv hc ha hA hcore hjob).1
  awaited did hd i hi hb hr := by
    have hkeep := hinv.keeps hA hd hlt
    obtain ⟨hi, hr⟩ := (hkeep.returned i hi hr).resolve_right fun hr => hring did hd hr.1
    rcases h.awaited did hd i hi hb hr with hs | ⟨k, hk, hrid⟩
    · exact .inl (hkeep.consumed i hi hs)
    · exact .inr ⟨k, hk, hrid.trans (congrArg _ (hkeep.cid i hi).symm)⟩
  covered j hdvd hj hlen := by
    obtain ⟨did, hd, i, hi, hb, hbuf, hl⟩ := h.covered j hdvd hj hlen
    have hkeep := hinv.keeps hA hd hlt
    have hreq := hkeep.req i hi
    refine ⟨did, hd, i, lt_of_lt_of_le hi hkeep.issued, hb, ?_, ?_⟩
    · exact (congrArg Request.buf hreq).trans hbuf
    · exact (congrArg Request.len hreq).trans hl

/-- The loop goes on, past requests that were consumed. -/
theorem ReadData.resume (h : ReadData c X base S io) {pc : LoopPc}
    (hpass : ∀ did < c.nvme.nd, ∀ i < (S.queue did io.core).issued, ∀ k, Awaited io.pc k →
      io.rid k = ridOf c.nvme did io.core ((S.queue did io.core).cmd i).cid →
        ((S.queue did io.core).cmd i).stage = .consumed ∨ Awaited pc k)
    (hprog : progress io.ioLen pc ≤ progress io.ioLen io.pc) :
    ReadData c X base S (io.resume pc) where
  reading := h.reading
  awaited did hd i hi hb hr := by
    rcases h.awaited did hd i hi hb hr with hs | ⟨k, hk, hrid⟩
    · exact .inl hs
    · exact (hpass did hd i hi k hk hrid).imp_right fun hk' => ⟨k, hk', hrid⟩
  covered j hdvd hj hlen := h.covered j hdvd (lt_of_lt_of_le hj hprog) hlen

/-- A multiple of `step` between one and the next. -/
theorem eq_of_between {step j j' : ℕ} (hj : step ∣ j) (hj' : step ∣ j') (hle : j ≤ j')
    (hlt : j' < j + step) : j' = j := by
  have hdvd : step ∣ j' - j := Nat.dvd_sub hj' hj
  have hzero := Nat.eq_zero_of_dvd_of_lt hdvd (by omega)
  omega

/-- A request returns its identifier. -/
theorem ReadData.ring (h : ReadData c X base S io) (hinv : DriverInv c.nvme S) (hc : c.nvme.Valid)
    (ha : c.nvme.Addressed) (hlt : io.core < c.nvme.nCore) {did rqK j lba cid : ℕ} {r : Request}
    (hd : did < c.nvme.nd) (hidle : ∀ d < c.nvme.nd, d ≠ did → (S.queue d io.core).pc = .idle)
    (hpc : (S.queue did io.core).pc = .doorbell r cid) (hloop : io.pc = .inner rqK j)
    (hmul : io.blksz ∣ j) (hr : r = ioRequest false lba io.blksz io.ioLen j io.buf) :
    ReadData c X base ((DriverStep.host did io.core).next c.nvme S)
      (Io.resume { io with rid := Function.update io.rid rqK (ridOf c.nvme did io.core cid) }
        (.inner (rqK + 1) (j + io.blksz))) := by
  have hA : (DriverStep.host did io.core).Admissible c.nvme S :=
    ⟨hd, hlt, trivial, fun rid hrid => by cases hrid⟩
  obtain ⟨hi, hlast⟩ := (hinv did hd _ hlt).ringing hpc
  have hkeep := fun d (hd : d < c.nvme.nd) => hinv.keeps hA hd hlt
  refine ⟨(h.reading.next hinv hc ha hA rfl fun r' hr' => by cases hr').1, ?_, ?_⟩
  · intro d hd' i hi' hb hret
    rcases (hkeep d hd').returned i hi' hret with ⟨hi', hret⟩ | ⟨⟨-, r', cid', hbell⟩, hlast'⟩
    · rcases h.awaited d hd' i hi' hb hret with hs | ⟨k, hk, hrid⟩
      · exact .inl ((hkeep d hd').consumed i hi' hs)
      · rw [hloop] at hk
        have hk : k < rqK := hk
        refine .inr ⟨k, Nat.lt_succ_of_lt hk, ?_⟩
        have hne : Function.update io.rid rqK (ridOf c.nvme did io.core cid) k = io.rid k :=
          Function.update_of_ne hk.ne _ _
        exact hne.trans (hrid.trans (congrArg _ ((hkeep d hd').cid i hi').symm))
    · have hdd : d = did := by
        by_contra hne
        rw [hidle d hd' hne] at hbell
        cases hbell
      subst hdd
      obtain rfl : i = (S.queue d io.core).issued - 1 := by omega
      refine .inr ⟨rqK, Nat.lt_succ_self rqK, ?_⟩
      have hcid := (hkeep d hd').cid _ hi
      rw [hlast] at hcid
      have hself : Function.update io.rid rqK (ridOf c.nvme d io.core cid) rqK =
          ridOf c.nvme d io.core cid := Function.update_self ..
      exact hself.trans (congrArg _ hcid.symm)
  · intro j' hdvd hj' hlen
    have hj' : j' < j + io.blksz := hj'
    by_cases hold : j' < j
    · obtain ⟨d, hd', i, hi', hb, hbuf, hl⟩ := h.covered j' hdvd (by rw [hloop]; exact hold) hlen
      have hreq := (hkeep d hd').req i hi'
      refine ⟨d, hd', i, lt_of_lt_of_le hi' (hkeep d hd').issued, hb, ?_, ?_⟩
      · exact (congrArg Request.buf hreq).trans hbuf
      · exact (congrArg Request.len hreq).trans hl
    · obtain rfl := eq_of_between hmul hdvd (Nat.le_of_not_lt hold) hj'
      have hb := (h.reading.phase did hd).reads.base_le_of hi (by
        change ((S.queue did io.core).cmd _).stage ≠ _
        rw [hlast]
        simp) (by
        change ((S.queue did io.core).cmd _).stage ≠ _
        rw [hlast]
        simp)
      have hreq := (hkeep did hd).req _ hi
      rw [hlast] at hreq
      refine ⟨did, hd, _, lt_of_lt_of_le hi (hkeep did hd).issued, hb, ?_, ?_⟩
      · exact (congrArg Request.buf hreq).trans (by rw [hr]; rfl)
      · exact (congrArg Request.len hreq).trans (by rw [hr]; rfl)

/-- A request whose identifier `nvme_check` finds done was consumed. -/
theorem consumed_of_done (hinv : DriverInv c.nvme S)
    (hfit : c.nvme.nd * c.nvme.nCore * c.nvme.qd ≤ 2 ^ 31) {did core i : ℕ} (hd : did < c.nvme.nd)
    (hlt : core < c.nvme.nCore) (hi : i < (S.queue did core).issued)
    (hdone : nvmeDone c.nvme S (ridOf c.nvme did core ((S.queue did core).cmd i).cid)) :
    ((S.queue did core).cmd i).stage = .consumed := by
  have hq := hinv did hd core hlt
  obtain ⟨hdid, hcore, hcid⟩ := rid_decode hfit hd hlt (hq.slots.cid_lt i hi)
  obtain ⟨-, hdone⟩ := hdone
  rw [hdid, hcore, hcid] at hdone
  by_contra hs
  rw [hq.slots.busy i hi hs] at hdone
  cases hdone

/-- What was consumed is in memory. -/
theorem ReadData.brought (h : ReadData c X base S io) (hinv : DriverInv c.nvme S)
    (hlt : io.core < c.nvme.nCore) {did i : ℕ} (hd : did < c.nvme.nd)
    (hi : i < (S.queue did io.core).issued) (hb : base did ≤ i)
    (hs : ((S.queue did io.core).cmd i).stage = .consumed) {k : ℕ}
    (hk : k < ((S.queue did io.core).cmd i).req.len) :
    S.user (((S.queue did io.core).cmd i).req.buf + k) =
      X (((S.queue did io.core).cmd i).req.buf + k) := by
  obtain ⟨p, hp, hget⟩ := (hinv did hd _ hlt).consumed_at hi hs
  exact (h.reading.phase did hd).brought p hp i hget hb k hk

end ReadData

/-! ### The queues -/

section Queues

variable {names : CString → Prop} {c : IoConfig} {s : System} {io : Io}

theorem InCall.congr {S S' : Driver} (h : InCall c S io)
    (hpc : ∀ d < c.nvme.nd, (S'.queue d io.core).pc = (S.queue d io.core).pc) : InCall c S' io := by
  unfold InCall at h ⊢
  cases hcall : io.call with
  | loop =>
    rw [hcall] at h
    exact fun d hd => (hpc d hd).trans (h d hd)
  | request did rqK back =>
    rw [hcall] at h
    obtain ⟨hd, hidle, j, lba, hloop, hserves⟩ := h
    refine ⟨hd, fun d hd' hne => (hpc d hd').trans (hidle d hd' hne), j, lba, hloop, ?_⟩
    rw [hpc did hd]
    exact hserves
  | test again k back =>
    rw [hcall] at h
    exact ⟨fun d hd => (hpc d hd).trans (h.1 d hd), h.2⟩
  | poll k back =>
    rw [hcall] at h
    refine ⟨h.1, fun d hd => ?_⟩
    rw [hpc d hd]
    exact h.2 d hd

/-- A step of the queues at which no request begins or returns. -/
theorem FileInv.drive (h : FileInv names c s) (hv : c.Valid) (hio : s.io = some io) {o : DriverStep}
    (hA : o.Admissible c.nvme s.driver) (hcore : o.core c.nvme = io.core)
    (hno : ∀ r, o.on ≠ .request r)
    (hring : ∀ did < c.nvme.nd,
      ¬ Rings (s.driver.queue did io.core) ((o.next c.nvme s.driver).queue did io.core))
    (call : LoopCall) (hcall : InCall c (o.next c.nvme s.driver) { io with call := call })
    (hreq : Io.requested { io with call := call } = io.requested) :
    FileInv names c { s with
      driver := o.next c.nvme s.driver
      io := some { io with call := call } } := by
  have hcalling := h.calling io hio
  have hinv := h.common.driver
  refine h.of_io hio (hinv.next hv.nvme hA) h.common.dir hcalling.rids hcall (fun hw => ?_) fun hw => ?_
  · obtain ⟨base, hr⟩ := h.read io hio hw
    have hjob : ∀ r, o.on = .request r →
        ReadJob (c.nvme.qp (o.did c.nvme) io.core) (wanted c s io) (s.driver.disk (o.did c.nvme)) r :=
      fun r hr' => absurd hr' (hno r)
    have hdata := hr.data.next hinv hv.nvme hv.addressed hcalling.core_lt hA hcore hjob hring call
    have hdisk := (hr.data.reading.next hinv hv.nvme hv.addressed hA hcore hjob).2.1
    exact ⟨base, hr.goesOn hdisk hr.multiple hdata⟩
  · obtain ⟨Y, base, hwr⟩ := h.write io hio hw
    obtain ⟨hwriting, huser⟩ := hwr.writing.next hinv hv.nvme hv.addressed hA hcore hno
    exact ⟨Y, base, hwr.goesOn huser hreq hwr.loop hwriting⟩

/-- Between two calls. -/
theorem FileInv.of_resting (hcommon : Common names c s) (hio : s.io = none)
    (hr : ∃ core A Y base, Resting c s core A Y base) : FileInv names c s where
  common := hcommon
  resting _ := hr
  calling io h := by
    rw [hio] at h
    cases h
  read io h := by
    rw [hio] at h
    cases h
  write io h := by
    rw [hio] at h
    cases h

/-- The drives may work at any time. -/
theorem FileInv.device (h : FileInv names c s) (hv : c.Valid) {o : DriverStep} (ho : ¬ o.IsHost)
    (hA : o.Admissible c.nvme s.driver) :
    FileInv names c { s with driver := o.next c.nvme s.driver } := by
  have hinv := h.common.driver
  have hno : ∀ r, o.on ≠ .request r := by
    intro r hr
    cases o with
    | exec did k i => cases hr
    | post did k i x => cases hr
    | _ => exact ho trivial
  cases hio : s.io with
  | none =>
    obtain ⟨core, A, Y, base, hr⟩ := h.resting hio
    have hcore := hr.writing.rest.core_eq ho hA
    have hwriting := (hr.writing.next hinv hv.nvme hv.addressed hA hcore hno).1
    have hstates := h.common.states
    rw [hio] at hstates
    refine .of_resting ⟨hinv.next hv.nvme hA, h.common.dir, hstates⟩ rfl ⟨core, A, Y, base,
      hr.core_lt, hwriting, fun d hd => ?_, hr.recorded⟩
    exact (pc_next ho d core).trans (hr.idle d hd)
  | some io =>
    have hcalling := h.calling io hio
    have hcore : o.core c.nvme = io.core := by
      cases hw : io.write with
      | false =>
        obtain ⟨base, hr⟩ := h.read io hio hw
        exact hr.data.reading.rest.core_eq ho hA
      | true =>
        obtain ⟨Y, base, hr⟩ := h.write io hio hw
        exact hr.writing.rest.core_eq ho hA
    have hpc : ∀ d < c.nvme.nd, ((o.next c.nvme s.driver).queue d io.core).pc =
        (s.driver.queue d io.core).pc := fun d _ => pc_next ho d io.core
    have hdrive := h.drive hv hio hA hcore hno (fun did hd => ?_) io.call
      (hcalling.call.congr hpc) rfl
    · exact hdrive
    · rintro ⟨hidle, r, cid, hbell⟩
      rw [hpc did hd, hbell] at hidle
      cases hidle

/-- A step of the ULT in a queue. -/
theorem host_admissible {did core : ℕ} (hd : did < c.nvme.nd) (hlt : core < c.nvme.nCore)
    (S : Driver) : (DriverStep.host did core).Admissible c.nvme S :=
  ⟨hd, hlt, trivial, fun rid hrid => by cases hrid⟩

theorem check_admissible {rid : ℤ} {S : Driver} (h0 : 0 ≤ rid) (hd : ridDid c.nvme rid < c.nvme.nd)
    (hlt : ridCore c.nvme rid < c.nvme.nCore)
    (hidle : (S.queue (ridDid c.nvme rid) (ridCore c.nvme rid)).pc = .idle) :
    (DriverStep.nvmeCheck rid).Admissible c.nvme S :=
  ⟨hd, hlt, hidle, fun rid' hrid => by cases hrid; exact h0⟩

theorem pc_host_of_ne {did d core : ℕ} (hne : d ≠ did) (S : Driver) :
    (((DriverStep.host did core).next c.nvme S).queue d core).pc = (S.queue d core).pc := by
  rw [queue_next_of_ne c.nvme (DriverStep.host did core) S fun he => hne he.1]

theorem serves_host {did core : ℕ} {S : Driver}
    (hpc : ∀ r cid, (S.queue did core).pc ≠ .doorbell r cid) :
    (((DriverStep.host did core).next c.nvme S).queue did core).pc.serves =
      (S.queue did core).pc.serves := by
  have hport := port_next c.nvme (DriverStep.host did core) S
  have hqueue : ((DriverStep.host did core).next c.nvme S).queue did core =
      (hostStep (c.nvme.qp did core) (S.port did core)).queue := congrArg Port.queue hport
  rw [hqueue]
  exact host_serves (s := S.port did core) hpc

/-- A step in `nvme_read_req` or `nvme_write_req` before the doorbell. -/
theorem FileInv.host (h : FileInv names c s) (hv : c.Valid) (hio : s.io = some io) {did : ℕ}
    (hd : did < c.nvme.nd) (hpc : ∀ r cid, (s.driver.queue did io.core).pc ≠ .doorbell r cid)
    (hcall : InCall c ((DriverStep.host did io.core).next c.nvme s.driver) io) :
    FileInv names c { s with driver := (DriverStep.host did io.core).next c.nvme s.driver } := by
  have hlt := (h.calling io hio).core_lt
  have hdrive := h.drive hv hio (host_admissible hd hlt s.driver) rfl (fun r hr => by cases hr)
    (fun d hd' => ?_) io.call hcall rfl
  · rw [← hio] at hdrive
    exact hdrive
  · rintro ⟨hidle, r, cid, hbell⟩
    by_cases he : d = did
    · subst he
      exact hpc r cid hbell
    · rw [pc_host_of_ne he, hbell] at hidle
      cases hidle

end Queues

/-! ### The steps of a loop -/

section Loop

variable {names : CString → Prop} {c : IoConfig} {s : System} {io : Io} {back : LoopPc}

theorem Io.loop_read {x : LoopPc × Option LoopAct} (hl : io.loop c = x) (hw : io.write = false) :
    readStep c.readDeg io.blksz io.ioLen io.pc = x := by
  rw [← hl, Io.loop, hw]
  rfl

theorem Io.loop_write {x : LoopPc × Option LoopAct} (hl : io.loop c = x) (hw : io.write = true) :
    writeStep c.writeDeg io.blksz io.ioLen io.pc = x := by
  rw [← hl, Io.loop, hw]
  rfl

theorem Io.loop_check {k : ℕ} (hl : io.loop c = (back, some (.check k))) : Waits io.pc back k := by
  cases hw : io.write with
  | false => exact (readStep_check (Io.loop_read hl hw)).1
  | true => exact writeStep_check (Io.loop_write hl hw)

/-- The identifier that a loop waits for is one that a request returned. -/
theorem Calling.rid (h : Calling c s io) (hv : c.Valid) {k : ℕ}
    (hl : io.loop c = (back, some (.check k))) :
    0 ≤ io.rid k ∧ ridDid c.nvme (io.rid k) < c.nvme.nd ∧ ridCore c.nvme (io.rid k) = io.core := by
  obtain ⟨did, hd, cid, hcid, hrid⟩ := h.rids k (Io.loop_check hl).awaited
  obtain ⟨hdid, hcore, -⟩ := rid_decode hv.fits hd h.core_lt hcid
  rw [hrid]
  refine ⟨?_, hdid.symm ▸ hd, hcore⟩
  rw [ridOf_eq hv.fits hd h.core_lt hcid]
  exact Int.natCast_nonneg _

/-- The ULT goes to another place of the same call. -/
theorem FileInv.setCall (h : FileInv names c s) (hio : s.io = some io) (call : LoopCall)
    (hcall : InCall c s.driver { io with call := call })
    (hreq : Io.requested { io with call := call } = io.requested) :
    FileInv names c { s with io := some { io with call := call } } := by
  refine h.of_io hio h.common.driver h.common.dir (h.calling io hio).rids hcall (fun hw => ?_) fun hw => ?_
  · obtain ⟨base, hr⟩ := h.read io hio hw
    exact ⟨base, hr.goesOn rfl hr.multiple ⟨hr.data.reading, hr.data.awaited, hr.data.covered⟩⟩
  · obtain ⟨Y, base, hwr⟩ := h.write io hio hw
    exact ⟨Y, base, hwr.goesOn rfl hreq hwr.loop hwr.writing⟩

/-- The loop goes on without a request. -/
theorem FileInv.resume (h : FileInv names c s) (hio : s.io = some io) {act : Option LoopAct}
    (hl : io.loop c = (back, act)) (hact : ∀ rqK j, act ≠ some (.request rqK j))
    (hidle : IdleQueues c io.core s.driver) (hreq : io.requested = progress io.ioLen io.pc)
    (hback : ∀ k, Awaited back k → Awaited io.pc k)
    (hpass : ∀ did < c.nvme.nd, ∀ i < (s.driver.queue did io.core).issued, ∀ k, Awaited io.pc k →
      io.rid k = ridOf c.nvme did io.core ((s.driver.queue did io.core).cmd i).cid →
        ((s.driver.queue did io.core).cmd i).stage = .consumed ∨ Awaited back k) :
    FileInv names c { s with io := some (io.resume back) } := by
  have hcalling := h.calling io hio
  refine h.of_io hio h.common.driver h.common.dir (fun k hk => hcalling.rids k (hback k hk)) hidle
    (fun hw => ?_) fun hw => ?_
  · obtain ⟨base, hr⟩ := h.read io hio hw
    have hl := Io.loop_read hl hw
    have hprog : progress io.ioLen back ≤ progress io.ioLen io.pc := by
      cases act with
      | none => exact (readStep_quiet hl).2
      | some act =>
        cases act with
        | request rqK j => exact absurd rfl (hact rqK j)
        | check k => exact (readStep_check hl).2.le
    have hmul := atMultiple_next c.readDeg io.ioLen hr.multiple
    rw [hl] at hmul
    exact ⟨base, hr.goesOn rfl hmul (hr.data.resume hpass hprog)⟩
  · obtain ⟨Y, base, hwr⟩ := h.write io hio hw
    have hl := Io.loop_write hl hw
    have hloop := hwr.loop_next hw
    rw [hl] at hloop
    have hreq' : (io.resume back).requested = io.requested := by
      rw [hreq]
      exact progress_quiet hwr.loop hl hact
    exact ⟨Y, base, hwr.goesOn rfl hreq' hloop hwr.writing⟩

theorem poll_of_idle {k : ℕ}
    (hpc : (s.driver.queue (ridDid c.nvme (io.rid k)) (ridCore c.nvme (io.rid k))).pc = .idle) :
    s.poll c io k back = { s with io := some { io with call := .test true k back } } := by
  simp only [System.poll, hpc]

theorem poll_of_ne {k : ℕ}
    (hpc : (s.driver.queue (ridDid c.nvme (io.rid k)) (ridCore c.nvme (io.rid k))).pc ≠ .idle) :
    s.poll c io k back = { s with
      driver := (DriverStep.host (ridDid c.nvme (io.rid k)) (ridCore c.nvme (io.rid k))).next c.nvme
        s.driver } := by
  unfold System.poll
  dsimp only
  split
  · rename_i h
    exact absurd h hpc
  · rfl

/-- A step in the `check_cq` of `nvme_check`. -/
theorem FileInv.poll (h : FileInv names c s) (hv : c.Valid) (hio : s.io = some io) {k : ℕ}
    (hcall : io.call = .poll k back) : FileInv names c (s.poll c io k back) := by
  have hcalling := h.calling io hio
  have hin := hcalling.call
  unfold InCall at hin
  rw [hcall] at hin
  obtain ⟨hl, hpcs⟩ := hin
  obtain ⟨-, hd, hcore⟩ := hcalling.rid hv hl
  obtain ⟨hserves, -⟩ := hpcs _ hd
  have hreq : io.requested = progress io.ioLen io.pc := by
    unfold Io.requested
    rw [hcall]
  by_cases hpc : (s.driver.queue (ridDid c.nvme (io.rid k)) io.core).pc = .idle
  · rw [poll_of_idle (by rw [hcore]; exact hpc)]
    refine h.setCall hio (.test true k back) ⟨fun d hd' => ?_, hl⟩ hreq.symm
    by_cases he : d = ridDid c.nvme (io.rid k)
    · rw [he]
      exact hpc
    · exact (hpcs d hd').2 he
  · have hbell : ∀ r cid, (s.driver.queue (ridDid c.nvme (io.rid k)) io.core).pc ≠ .doorbell r cid := by
      intro r cid hbell
      rw [hbell] at hserves
      cases hserves
    rw [poll_of_ne (by rw [hcore]; exact hpc), hcore]
    refine h.host hv hio hd hbell ?_
    unfold InCall
    rw [hcall]
    refine ⟨hl, fun d hd' => ?_⟩
    by_cases he : d = ridDid c.nvme (io.rid k)
    · refine ⟨?_, fun hne => absurd he hne⟩
      rw [he, serves_host hbell]
      exact hserves
    · rw [pc_host_of_ne he]
      exact hpcs d hd'

/-- A test of `done`. -/
theorem FileInv.test (h : FileInv names c s) (hv : c.Valid) (hio : s.io = some io) {again : Bool} {k : ℕ}
    (hcall : io.call = .test again k back) :
    ∃ s', s.test c io again k back = .ok s' ∧ FileInv names c s' := by
  have hcalling := h.calling io hio
  have hin := hcalling.call
  unfold InCall at hin
  rw [hcall] at hin
  obtain ⟨hidle, hl⟩ := hin
  obtain ⟨h0, hd, hcore⟩ := hcalling.rid hv hl
  have hreq : io.requested = progress io.ioLen io.pc := by
    unfold Io.requested
    rw [hcall]
  unfold System.test
  rw [if_pos ⟨h0, hd⟩]
  split_ifs with hdone hagain
  · refine ⟨_, rfl, h.resume hio hl (fun _ _ hact => by cases hact) hidle hreq
      (Io.loop_check hl).back fun did hd' i hi k' hk' hrid => ?_⟩
    rcases (Io.loop_check hl).rest k' hk' with rfl | hk'
    · left
      rw [hrid] at hdone
      exact consumed_of_done h.common.driver hv.fits hd' hcalling.core_lt hi hdone
    · exact .inr hk'
  · exact ⟨_, rfl, h.setCall hio (.test false k back) ⟨hidle, hl⟩ hreq.symm⟩
  · have hpc : (s.driver.queue (ridDid c.nvme (io.rid k)) io.core).pc = .idle := hidle _ hd
    have hA : (DriverStep.nvmeCheck (io.rid k)).Admissible c.nvme s.driver :=
      check_admissible h0 hd (hcore.symm ▸ hcalling.core_lt) (hcore.symm ▸ hpc)
    have hpcs : ∀ d, d ≠ ridDid c.nvme (io.rid k) →
        ((DriverStep.nvmeCheck (io.rid k)).next c.nvme s.driver).queue d io.core =
          s.driver.queue d io.core :=
      fun d hne => queue_next_of_ne c.nvme (DriverStep.nvmeCheck (io.rid k)) _ fun he => hne he.1
    have hself : (((DriverStep.nvmeCheck (io.rid k)).next c.nvme s.driver).queue
        (ridDid c.nvme (io.rid k)) io.core).pc = .checkCq none := by
      have hport := port_next c.nvme (DriverStep.nvmeCheck (io.rid k)) s.driver
      rw [← hcore]
      exact congrArg (fun p : Port => p.queue.pc) hport
    refine ⟨_, rfl, h.drive hv hio hA hcore (fun r hr => by cases hr) (fun d hd' => ?_)
      (.poll k back) ⟨hl, fun d hd' => ?_⟩ hreq.symm⟩
    · rintro ⟨-, r, cid, hbell⟩
      rw [hidle d hd'] at hbell
      cases hbell
    · change ((((DriverStep.nvmeCheck (io.rid k)).next c.nvme s.driver).queue d io.core).pc.serves =
        none) ∧ (d ≠ _ → (((DriverStep.nvmeCheck (io.rid k)).next c.nvme s.driver).queue d
          io.core).pc = .idle)
      by_cases he : d = ridDid c.nvme (io.rid k)
      · refine ⟨?_, fun hne => absurd he hne⟩
        rw [he, hself]
        rfl
      · rw [hpcs d he, hidle d hd']
        exact ⟨rfl, fun _ => rfl⟩

/-- The identifier goes to `rid[rqK]`, and the loop goes on. -/
def Io.returned (c : IoConfig) (io : Io) (did rqK cid : ℕ) (back : LoopPc) : Io :=
  Io.resume { io with rid := Function.update io.rid rqK (ridOf c.nvme did io.core cid) } back

theorem inRequest_of_doorbell {did rqK cid : ℕ} {r : Request}
    (hpc : (s.driver.queue did io.core).pc = .doorbell r cid) :
    s.inRequest c io did rqK back = { s with
      driver := (DriverStep.host did io.core).next c.nvme s.driver
      io := some (io.returned c did rqK cid back) } := by
  simp only [System.inRequest, hpc, Io.returned]

theorem inRequest_of_ne {did rqK : ℕ}
    (hpc : ∀ r cid, (s.driver.queue did io.core).pc ≠ .doorbell r cid) :
    s.inRequest c io did rqK back =
      { s with driver := (DriverStep.host did io.core).next c.nvme s.driver } := by
  unfold System.inRequest
  dsimp only
  split
  · rename_i r cid h
    exact absurd h (hpc r cid)
  · rfl

theorem pc_host_doorbell {did core cid : ℕ} {r : Request} {S : Driver}
    (hpc : (S.queue did core).pc = .doorbell r cid) :
    (((DriverStep.host did core).next c.nvme S).queue did core).pc = .idle := by
  have hport := port_next c.nvme (DriverStep.host did core) S
  have hqueue : ((DriverStep.host did core).next c.nvme S).queue did core =
      (hostStep (c.nvme.qp did core) (S.port did core)).queue := congrArg Port.queue hport
  have hpc : (S.port did core).queue.pc = .doorbell r cid := hpc
  rw [hqueue, hostStep, hpc]
  rfl

/-- The identifiers of a batch, and one more. -/
theorem rids_update {rid : ℕ → ℤ} {P : ℤ → Prop} {rqK : ℕ} {x : ℤ} (h : ∀ k < rqK, P (rid k))
    (hx : P x) : ∀ k < rqK + 1, P (Function.update rid rqK x k) := by
  intro k hk
  by_cases he : k = rqK
  · rw [he, Function.update_self]
    exact hx
  · rw [Function.update_of_ne he]
    exact h k (by omega)

/-- Where a loop goes on after a request, it waits for no other one. -/
theorem Io.loop_request {rqK j : ℕ} (hl : io.loop c = (back, some (.request rqK j))) :
    io.pc = .inner rqK j ∧ ∀ k, Awaited back k → k < rqK + 1 := by
  cases hw : io.write with
  | false =>
    obtain ⟨hpc, -, rfl⟩ := readStep_request (Io.loop_read hl hw)
    exact ⟨hpc, fun k hk => hk⟩
  | true =>
    obtain ⟨hpc, hback⟩ := writeStep_request (Io.loop_write hl hw)
    refine ⟨hpc, fun k hk => ?_⟩
    rcases hback with rfl | rfl
    · exact Nat.lt_succ_of_lt hk.2
    · exact hk

/-- A request returns. -/
theorem FileInv.ring (h : FileInv names c s) (hv : c.Valid) (hio : s.io = some io) {did rqK cid : ℕ}
    {r : Request} (hcall : io.call = .request did rqK back)
    (hbell : (s.driver.queue did io.core).pc = .doorbell r cid) :
    FileInv names c { s with
      driver := (DriverStep.host did io.core).next c.nvme s.driver
      io := some (io.returned c did rqK cid back) } := by
  have hcalling := h.calling io hio
  have hlt := hcalling.core_lt
  have hinv := h.common.driver
  have hin := hcalling.call
  unfold InCall at hin
  rw [hcall] at hin
  obtain ⟨hd, hidle, j, lba, hl, hserves⟩ := hin
  obtain ⟨hpc, hawait⟩ := Io.loop_request hl
  have hr : r = ioRequest io.write lba io.blksz io.ioLen j io.buf := by
    rw [hbell] at hserves
    exact Option.some.inj hserves
  have hA := host_admissible (c := c) hd hlt s.driver
  have hcid : cid < c.nvme.qd := (hinv did hd _ hlt).ringing_cid_lt hbell
  change FileInv names c { s with
    driver := (DriverStep.host did io.core).next c.nvme s.driver
    io := some { io with rid := Function.update io.rid rqK (ridOf c.nvme did io.core cid), pc := back, call := .loop } }
  refine h.of_io hio (hinv.next hv.nvme hA) h.common.dir (fun k hk => ?_) (fun d hd' => ?_)
    (fun hw => ?_) fun hw => ?_
  · refine rids_update (P := fun x => ∃ did < c.nvme.nd, ∃ cid < c.nvme.qd,
      x = ridOf c.nvme did io.core cid) (fun k hk => hcalling.rids k ?_) ⟨did, hd, cid, hcid, rfl⟩
      k (hawait k hk)
    rw [hpc]
    exact hk
  · by_cases he : d = did
    · rw [he]
      exact pc_host_doorbell hbell
    · exact (pc_host_of_ne he _).trans (hidle d hd' he)
  · obtain ⟨base, hread⟩ := h.read io hio hw
    obtain ⟨-, -, hback⟩ := readStep_request (Io.loop_read hl hw)
    have hmul := hread.multiple
    rw [hpc] at hmul
    rw [hw] at hr
    have hdata := hread.data.ring hinv hv.nvme hv.addressed hlt hd hidle hbell hpc hmul hr
    have hdisk := (hread.data.reading.next hinv hv.nvme hv.addressed hA rfl
      fun r' hr' => by cases hr').2.1
    have hmul : AtMultiple io.blksz back := by
      rw [hback]
      exact (Nat.dvd_add_right hmul).mpr dvd_rfl
    rw [← hback] at hdata
    exact ⟨base, hread.goesOn hdisk hmul hdata⟩
  · obtain ⟨Y, base, hwr⟩ := h.write io hio hw
    obtain ⟨hwriting, huser⟩ := hwr.writing.next hinv hv.nvme hv.addressed hA rfl
      fun r' hr' => by cases hr'
    have hloop := hwr.loop_next hw
    rw [Io.loop_write hl hw] at hloop
    have hreq : (io.returned c did rqK cid back).requested = io.requested := by
      unfold Io.requested
      rw [hcall]
      rfl
    exact ⟨Y, base, hwr.goesOn huser hreq hloop hwriting⟩

/-- A step in `nvme_read_req` or `nvme_write_req`. -/
theorem FileInv.inRequest (h : FileInv names c s) (hv : c.Valid) (hio : s.io = some io) {did rqK : ℕ}
    (hcall : io.call = .request did rqK back) : FileInv names c (s.inRequest c io did rqK back) := by
  by_cases hbell : ∃ r cid, (s.driver.queue did io.core).pc = .doorbell r cid
  · obtain ⟨r, cid, hbell⟩ := hbell
    rw [inRequest_of_doorbell hbell]
    exact h.ring hv hio hcall hbell
  · push Not at hbell
    rw [inRequest_of_ne hbell]
    have hin := (h.calling io hio).call
    unfold InCall at hin
    rw [hcall] at hin
    obtain ⟨hd, hidle, j, lba, hl, hserves⟩ := hin
    refine h.host hv hio hd hbell ?_
    unfold InCall
    rw [hcall]
    refine ⟨hd, fun d hd' hne => ?_, j, lba, hl, ?_⟩
    · exact (pc_host_of_ne hne _).trans (hidle d hd' hne)
    · exact (serves_host hbell).trans hserves

end Loop

end Pthabt.Hook
