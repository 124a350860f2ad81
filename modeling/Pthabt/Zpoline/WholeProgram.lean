import Mathlib.Data.List.Pairwise
import Pthabt.Zpoline.Maps
import Pthabt.Zpoline.Simulation

/-! From the memory that `rewrite_code` leaves to the machine that runs it. -/

namespace Pthabt.Zpoline

open Lib Memory X86

variable {ω ε : Type*}

/-- How the processor decodes the bytes at an address. -/
abbrev Dec (ω : Type*) := Mem → Word → Option (Instr ω × Word)

/-- What is known of the processor, and that the disassembler agrees with it on the instructions that lie
in the buffer. -/
structure Decodes (dec : Dec ω) (disasm : Disasm) : Prop where
  call : ∀ m a, m a = 0xff → m (a + 1) = 0xd0 → dec m a = some (.callReg .rax, a + 2)
  bytes : ∀ m m' a i next, dec m a = some (i, next) → (∀ j < (next - a).toNat, m' (a + .ofNat 64 j) = m (a + .ofNat 64 j)) →
    dec m' a = some (i, next)
  agrees : ∀ m code size off i next, off < size → dec m (code + .ofNat 64 off) = some (i, next) →
    off + (next - (code + .ofNat 64 off)).toNat ≤ size →
    (disasm (fun j => m (code + .ofNat 64 j)) size off).2 = (next - (code + .ofNat 64 off)).toNat ∧
      ((disasm (fun j => m (code + .ofNat 64 j)) size off).1.any isSystemCall ↔ i = .syscall)

/-- The offsets of the instructions of a mapping. -/
def Mapping.starts (disasm : Disasm) (m : Mem) (v : Mapping) : List ℕ :=
  Zpoline.starts disasm (v.stop - v.start) (fun j => m (.ofNat 64 v.start + .ofNat 64 j)) (v.stop - v.start + 1) 0

/-- The code of the program `S` is in the mappings that are rewritten. -/
def IsProgram (S : Machine ω ε) (dec : Dec ω) (disasm : Disasm) (syscallAddr : Word) (maps : List Mapping) (m : Mem) : Prop :=
  ∀ a x, S.fetch a = some x → dec m a = some x ∧ a ≠ syscallAddr ∧
    ∃ v ∈ maps, ¬ v.Skipped ∧ ∃ o ∈ v.starts disasm m, a = .ofNat 64 v.start + .ofNat 64 o ∧
      o + (x.2 - a).toNat ≤ v.stop - v.start

/-- The same program after the rewriting. -/
structure IsRewritten (S T : Machine ω ε) (dec : Dec ω) (m' : Mem) : Prop where
  fetch : ∀ a x, S.fetch a = some x → T.fetch a = dec m' a
  other : T.other = S.other

variable {S T : Machine ω ε} {dec : Dec ω} {disasm : Disasm} {syscallAddr : Word} {maps : List Mapping} {m m' : Mem}

/-- Mappings do not overlap. -/
theorem eq_of_overlap (hsorted : maps.Pairwise fun v w => v.stop ≤ w.start) {v w : Mapping} (hv : v ∈ maps) (hw : w ∈ maps)
    {x : Word} (hxv : v.Has x) (hxw : w.Has x) : v = w := by
  by_contra hne
  have hdisjoint : maps.Pairwise fun v w => v.stop ≤ w.start ∨ w.stop ≤ v.start := hsorted.imp Or.inl
  have hsymm : Std.Symm fun v w : Mapping => v.stop ≤ w.start ∨ w.stop ≤ v.start := ⟨fun _ _ => Or.symm⟩
  have hor := hdisjoint.forall hv hw hne
  obtain ⟨h1, h2⟩ := hxv
  obtain ⟨h3, h4⟩ := hxw
  omega

/-- A system call of the mappings at an address of one of them is one of its own. -/
theorem call_of_has (hd : Disassembles disasm) (hmaps : ∀ v ∈ maps, v.Listed)
    (hsorted : maps.Pairwise fun v w => v.stop ≤ w.start) {v : Mapping} (hv : v ∈ maps) {x : Word} (hx : v.Has x)
    {y : Word} (hy : y = x ∨ y = x - 1 ∧ 0 < x.toNat) (h : ∃ w ∈ maps, w.Calls disasm syscallAddr m y) :
    v.Calls disasm syscallAddr m y := by
  obtain ⟨w, hw, hcall⟩ := h
  have hin := hcall.has hd (hmaps w hw)
  have hxw : w.Has x := by
    rcases hy with rfl | ⟨rfl, h0⟩
    · exact ⟨by omega, by omega⟩
    · constructor <;> bv_omega
  rwa [eq_of_overlap hsorted hv hw hx hxw]

/-- The bytes of an instruction that is no system call stay. -/
theorem bytes_kept (hd : Disassembles disasm) (hmaps : ∀ v ∈ maps, v.Listed)
    (hsorted : maps.Pairwise fun v w => v.stop ≤ w.start)
    (hm : RewrittenTo (fun a => ∃ v ∈ maps, v.Calls disasm syscallAddr m a) m m') {v : Mapping} (hv : v ∈ maps)
    (hskip : ¬ v.Skipped) {o : ℕ} (ho : o ∈ v.starts disasm m)
    (hstop : o + (disasm (fun j => m (.ofNat 64 v.start + .ofNat 64 j)) (v.stop - v.start) o).2 ≤ v.stop - v.start)
    (hno : ¬ (disasm (fun j => m (.ofNat 64 v.start + .ofNat 64 j)) (v.stop - v.start) o).1.any isSystemCall) {j : ℕ}
    (hj : j < (disasm (fun j => m (.ofNat 64 v.start + .ofNat 64 j)) (v.stop - v.start) o).2) :
    m' (.ofNat 64 v.start + .ofNat 64 (o + j)) = m (.ofNat 64 v.start + .ofNat 64 (o + j)) := by
  have htop := (hmaps v hv).top fun hs => hskip (.inl hs)
  have hlow : 0 < v.start := Nat.pos_of_ne_zero fun h => hskip (.inr (.inr h))
  have hx : v.Has (.ofNat 64 v.start + .ofNat 64 (o + j)) := by constructor <;> bv_omega
  -- no system call begins at a byte of the instruction, and none ends there
  have hsite (o' : ℕ) (ho' : o' ∈ sites disasm syscallAddr (.ofNat 64 v.start) (v.stop - v.start)
      (fun j => m (.ofNat 64 v.start + .ofNat 64 j)) (v.stop - v.start + 1) 0) : o' + 2 ≤ o ∨ o + j < o' := by
    obtain ⟨hstart', hcall'⟩ := List.mem_filter.mp ho'
    rcases Nat.lt_trichotomy o' o with hlt | rfl | hgt
    · have hapart := starts_apart hstart' ho hlt
      rw [(hd.two _ _ o' (starts_bounds hstart').2 (isSite_iff.mp hcall').1).1] at hapart
      exact .inl hapart
    · exact absurd (isSite_iff.mp hcall').1 hno
    · have hapart := starts_apart ho hstart' hgt
      exact .inr (by omega)
  refine hm.rest _ (fun h => ?_) fun h => ?_
  · obtain ⟨-, o', ho', heq⟩ := call_of_has hd hmaps hsorted hv hx (.inl rfl) h
    have hbounds := sites_bounds hd ho'
    have hor := hsite o' ho'
    bv_omega
  · obtain ⟨-, o', ho', heq⟩ := call_of_has hd hmaps hsorted hv hx (.inr ⟨rfl, by have := hx.1; omega⟩) h
    have hbounds := sites_bounds hd ho'
    have hor := hsite o' ho'
    bv_omega

/-- The rewritten program has its system calls replaced and recorded. -/
theorem replaces_of_rewritten (hd : Disassembles disasm) (hdec : Decodes dec disasm) (hmaps : ∀ v ∈ maps, v.Listed)
    (hsorted : maps.Pairwise fun v w => v.stop ≤ w.start)
    (hm : RewrittenTo (fun a => ∃ v ∈ maps, v.Calls disasm syscallAddr m a) m m') {bm : Bitmap}
    (hbm : ∀ a, (∃ v ∈ maps, v.Calls disasm syscallAddr m a) → isBitmapSet bm a = true)
    (hS : IsProgram S dec disasm syscallAddr maps m) (hT : IsRewritten S T dec m') : Replaces S T bm where
  call a next hfetch := by
    obtain ⟨hdecode, hne, v, hv, hskip, o, ho, rfl, hstop⟩ := hS _ _ hfetch
    obtain ⟨hnext, hiff⟩ := hdec.agrees m _ _ o _ next (starts_bounds ho).2 hdecode hstop
    obtain ⟨htwo, -⟩ := hd.two _ _ o (starts_bounds ho).2 (hiff.mpr rfl)
    have hcalls : v.Calls disasm syscallAddr m (.ofNat 64 v.start + .ofNat 64 o) :=
      ⟨hskip, o, List.mem_filter.mpr ⟨ho, isSite_iff.mpr ⟨hiff.mpr rfl, hne⟩⟩, rfl⟩
    have hbounds := hcalls.has hd (hmaps v hv)
    have htop := (hmaps v hv).top fun hs => hskip (.inl hs)
    have hnext' : next = .ofNat 64 v.start + .ofNat 64 o + 2 := by
      rw [htwo] at hnext
      bv_omega
    obtain ⟨hff, hd0⟩ := hm.call _ ⟨v, hv, hcalls⟩
    refine ⟨hnext', ?_, ?_⟩
    · rw [hT.fetch _ _ hfetch, hnext']
      exact hdec.call _ _ hff hd0
    · rw [isReplacedInstructionAddr, if_pos (by bv_omega), hbm _ ⟨v, hv, hcalls⟩]
  rest a i next hfetch hi := by
    obtain ⟨hdecode, hne, v, hv, hskip, o, ho, rfl, hstop⟩ := hS _ _ hfetch
    obtain ⟨hnext, hiff⟩ := hdec.agrees m _ _ o _ next (starts_bounds ho).2 hdecode hstop
    rw [hT.fetch _ _ hfetch]
    refine hdec.bytes m m' _ i next hdecode fun j hj => ?_
    rw [show BitVec.ofNat 64 v.start + .ofNat 64 o + .ofNat 64 j = .ofNat 64 v.start + .ofNat 64 (o + j) by bv_omega]
    exact bytes_kept hd hmaps hsorted hm hv hskip ho (by rw [hnext]; exact hstop) (fun h => hi (hiff.mp h)) (by rwa [hnext])
  other := hT.other

variable {L : Labels} {hookFn : CFun 7 ε} {K : ℕ}

/-! ### A small program -/

/-- A processor with two instructions. -/
def smallDec : Dec Unit := fun m a =>
  if m a = 0xff ∧ m (a + 1) = 0xd0 then some (.callReg .rax, a + 2)
  else if m a = 0x0f ∧ m (a + 1) = 0x05 then some (.syscall, a + 2)
  else none

theorem smallDec_decodes : Decodes smallDec smallDisasm where
  call m a h h' := if_pos ⟨h, h'⟩
  bytes m m' a i next h hbytes := by
    have hnext : next = a + 2 := by
      unfold smallDec at h
      split_ifs at h <;> exact (congrArg Prod.snd (Option.some.inj h)).symm
    have h0 : m' a = m a := by simpa using hbytes 0 (by bv_omega)
    have h1 : m' (a + 1) = m (a + 1) := hbytes 1 (by bv_omega)
    rw [← h, smallDec, smallDec, h0, h1]
  agrees m code size off i next hlt h hle := by
    have hnext : (next - (code + .ofNat 64 off)).toNat = 2 := by
      unfold smallDec at h
      have hsnd : next = code + .ofNat 64 off + 2 := by
        split_ifs at h <;> exact (congrArg Prod.snd (Option.some.inj h)).symm
      bv_omega
    have hadd : code + .ofNat 64 off + 1 = code + .ofNat 64 (off + 1) := by bv_omega
    unfold smallDec at h
    rw [hnext] at hle ⊢
    rw [hadd] at h
    unfold smallDisasm
    simp only [hle, true_and]
    split_ifs at h ⊢
    · cases h
      simp [isSystemCall]
    · cases h
      simp [isSystemCall]

end Pthabt.Zpoline
