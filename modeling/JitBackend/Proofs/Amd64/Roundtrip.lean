import Mathlib
import JitBackend.Proofs.Amd64.Encoding

/-!
# Decoding what was encoded

The bytes that an accepted expression appends to a buffer are read back as the instructions that the expression denotes
(`decode_encode`), up to the normal forms of `Instr.normal`. Each writer of the encoder is taken apart into the bytes that
it has written; the lemmas on single instructions say what those bytes read as. A reference to a label stands at the end of
its instruction, where distances are counted from.
-/

namespace JitBackend

/-- The distance from an offset to a label, zero while the label is not bound. -/
def Buffer.distance (b : Buffer) (place : Nat) (l : Label) : BitVec 32 :=
  match b.labelOffset l with
  | some target => .ofInt 32 (target - place)
  | none => 0

namespace Amd64

/-! ## Sequences -/

/-- The bytes are those of the sequence `cs`, one instruction after the other. -/
inductive Spells : List Byte → List Coded → Prop
  | nil : Spells [] []
  | cons {bs bs' : List Byte} {c : Coded} {cs : List Coded} (h : Codes bs c) (hs : Spells bs' cs) :
      Spells (bs ++ bs') (c :: cs)

theorem Codes.length_pos {bs : List Byte} {c : Coded} (h : Codes bs c) : 0 < bs.length := by
  refine List.length_pos_iff.2 ?_
  rintro rfl
  obtain ⟨_, hnil, -⟩ := h []
  cases hnil

/-- Such bytes read as the sequence, with none left over. -/
theorem Spells.decodes {bs : List Byte} {cs : List Coded} (h : Spells bs cs) :
    ∃ cs', decode bs = some cs' ∧ cs'.map Coded.normal = cs.map Coded.normal := by
  induction h with
  | nil =>
    rw [decode, if_pos rfl]
    exact ⟨[], rfl, rfl⟩
  | @cons bs bs' c cs h _ ih =>
    obtain ⟨c', hone, hc⟩ := h bs'
    obtain ⟨cs', hcs', heq⟩ := ih
    have hlen := h.length_pos
    refine ⟨c' :: cs', ?_, by rw [List.map_cons, List.map_cons, hc, heq]⟩
    rw [decode, if_neg (by simp [List.length_pos_iff.1 hlen])]
    simp only [hone, List.length_append, if_pos (show bs'.length < bs.length + bs'.length by omega), hcs', Option.map_some]

theorem Codes.spells {bs : List Byte} {c : Coded} (h : Codes bs c) : Spells bs [c] := by
  have := Spells.cons h .nil
  rwa [List.append_nil] at this

/-- What was written between `pre` and `post` reads as `cs`, under given distances of labels. A reference stands at the end,
so that distances from its end are distances from the end of the instruction. -/
def Written (dist : Label → BitVec 32) (pre post : List Piece) (cs : List Coded) : Prop :=
  ∃ (bs : List Byte) (ls : List Label), post = pre ++ (bs.map Piece.byte ++ ls.map Piece.rel32) ∧ ls.length ≤ 1 ∧
    Spells (bs ++ ls.flatMap fun l => dispBytes (dist l)) cs

section Written

variable {dist : Label → BitVec 32} {pre mid post : List Piece} {n d size : Nat} {o dst src : Operand} {r : HardReg}
  {v : Word} {u : Unit} {field : RegField} {rm : Rm} {opcode : List Byte} {c : Coded}

/-- An instruction without a reference. -/
theorem Codes.written {bs : List Byte} (h : Codes bs c) (hpost : post = pre ++ bs.map Piece.byte) :
    Written dist pre post [c] :=
  ⟨bs, [], by simpa using hpost, by simp, by simpa using h.spells⟩

theorem rmOr_eq_ok {what : Refusal} (h : rmOr o n what = .ok rm) : rmOf? o n = some rm := by
  unfold rmOr at h
  split at h
  · cases h
    assumption
  · cases h

theorem rmOf?_cases (h : rmOf? o n = some rm) : (∃ r, o = .reg r) ∨ ∃ m, o = .mem m := by
  cases o with
  | reg r => exact .inl ⟨r, rfl⟩
  | mem m => exact .inr ⟨m, rfl⟩
  | imm | label => cases h

/-- What an instruction on a register or a place in memory has written. -/
theorem run_inst_says (h : (inst size opcode field rm).run pre = (.ok u, post)) (hrm : rmOf? o n = some rm) (ho : o.IsGpr) :
    rm.Says n o ∧ post = pre ++ (instBytes size opcode field rm).map Piece.byte := by
  obtain ⟨hidx, hpost⟩ := run_inst h
  rw [rmOf?_references hrm, List.map_nil, List.append_nil] at hpost
  exact ⟨⟨hrm, ho, hidx⟩, hpost⟩

theorem run_outImm (hn : IsSize n) (h : (outImm n v).run pre = (.ok u, post)) :
    low n (sext (min n 4) v) = low n v ∧ (n = 8 → fitsDword v = true) ∧
      post = pre ++ (littleEndian (min n 4) v).map Piece.byte := by
  have hdword : fitsDword v = true → sext 4 v = v := fun h => by simpa [fitsDword, sext] using h
  rcases hn with rfl | rfl | rfl | rfl <;> simp only [outImm] at h
  · exact ⟨low_sext (by decide) v, by simp, run_out_eq_ok.1 h⟩
  · exact ⟨low_sext (by decide) v, by simp, run_out_eq_ok.1 h⟩
  · split at h
    · exact ⟨low_sext (by decide) v, by simp, run_out_eq_ok.1 h⟩
    · exact absurd h run_throw_ne_ok
  · split at h
    · rename_i hv
      exact ⟨congrArg (low 8) (hdword hv), fun _ => hv, run_out_eq_ok.1 h⟩
    · exact absurd h run_throw_ne_ok

theorem fitsPair_imm (hrm : rmOf? dst n = some rm) (hv : n = 8 → fitsDword v = true) : fitsPair n dst (.imm v) = true := by
  have hfits : (n != 8 || fitsDword v) = true := by
    by_cases h8 : n = 8
    · simp [hv h8]
    · simp [h8]
  obtain ⟨r, rfl⟩ | ⟨m, rfl⟩ := rmOf?_cases hrm
  · exact hfits
  · exact hfits

theorem fitsDword_of_fitsByte (h : fitsByte v = true) : fitsDword v = true := by
  simp only [fitsByte, fitsDword, beq_iff_eq] at h ⊢
  rw [← h]
  generalize v.setWidth 8 = b
  apply BitVec.eq_of_getLsbD_eq
  intro i hi
  simp only [BitVec.getLsbD_signExtend, BitVec.getLsbD_setWidth, BitVec.msb_setWidth, hi]
  by_cases h1 : i < 8
  · simp [h1, show i < 32 by omega]
  · by_cases h2 : i < 32 <;> simp [h1, h2]

variable (dist)

theorem written_outAlu {i : Instr} (hn : IsSize n) (hd : d < 8) (hdst : dst.IsGpr) (hsrc : src.IsGpr)
    (hi : aluOf? n dst src d = some i) (h : (outAlu d n dst src).run pre = (.ok u, post)) :
    fitsPair n dst src = true ∧ Written dist pre post [.plain i] := by
  unfold outAlu at h
  simp only [run_bind_eq_ok, run_lift_eq_ok] at h
  obtain ⟨rm, _, ⟨hrm, rfl⟩, h⟩ := h
  replace hrm := rmOr_eq_ok hrm
  cases src with
  | reg r =>
    obtain ⟨hsaid, hpost⟩ := run_inst_says h hrm hdst
    refine ⟨?_, (codes_alu_store hn hd hi hsaid hsrc).written hpost⟩
    obtain ⟨r, rfl⟩ | ⟨m, rfl⟩ := rmOf?_cases hrm <;> rfl
  | mem m =>
    cases dst with
    | reg r =>
      obtain ⟨hsaid, hpost⟩ := run_inst_says h (o := .mem m) (n := n) rfl hsrc
      exact ⟨rfl, (codes_alu_load hn hd hi hsaid hdst).written hpost⟩
    | mem | imm | label => exact absurd h run_throw_ne_ok
  | imm v =>
    dsimp only at h
    split at h
    · rename_i h1
      subst h1
      obtain ⟨_, mid, hinst, himm⟩ := run_bind_eq_ok.1 h
      obtain ⟨hsaid, rfl⟩ := run_inst_says hinst hrm hdst
      obtain ⟨hv, h8, rfl⟩ := run_outImm hn himm
      exact ⟨fitsPair_imm hrm h8, (codes_alu_imm hn hd hi hsaid hv).written (by simp)⟩
    · rename_i h1
      split at h
      · rename_i hbyte
        obtain ⟨_, mid, hinst, himm⟩ := run_bind_eq_ok.1 h
        obtain ⟨hsaid, rfl⟩ := run_inst_says hinst hrm hdst
        obtain ⟨-, -, rfl⟩ := run_outImm (n := 1) (by simp [IsSize]) himm
        have hv : sext 1 v = v := by simpa [fitsByte, sext] using hbyte
        refine ⟨fitsPair_imm hrm fun _ => ?_,
          (codes_alu_byte (by unfold IsSize at hn; omega) hd hi hsaid hv).written (by simp)⟩
        exact fitsDword_of_fitsByte hbyte
      · obtain ⟨_, mid, hinst, himm⟩ := run_bind_eq_ok.1 h
        obtain ⟨hsaid, rfl⟩ := run_inst_says hinst hrm hdst
        obtain ⟨hv, h8, rfl⟩ := run_outImm hn himm
        have hcodes := codes_alu_imm hn hd hi hsaid hv
        rw [if_neg h1] at hcodes
        exact ⟨fitsPair_imm hrm h8, hcodes.written (by simp)⟩
  | label l => cases dst <;> exact absurd h run_throw_ne_ok

theorem written_outTest {a b : Operand} (hn : IsSize n) (ha : a.IsGpr) (hb : b.IsGpr)
    (h : (outTest n a b).run pre = (.ok u, post)) :
    (∃ r m, a = .reg r ∧ b = .mem m ∧ Written dist pre post [.plain (.test n b a)]) ∨
      ((∀ r m, a = .reg r → b = .mem m → False) ∧ fitsPair n a b = true ∧ Written dist pre post [.plain (.test n a b)]) := by
  unfold outTest at h
  split at h
  rename_i a' b' heq
  simp only [run_bind_eq_ok, run_lift_eq_ok] at h
  obtain ⟨rm, _, ⟨hrm, rfl⟩, h⟩ := h
  replace hrm := rmOr_eq_ok hrm
  split at heq
  · cases heq
    obtain ⟨hsaid, hpost⟩ := run_inst_says h hrm hb
    exact .inl ⟨_, _, rfl, rfl, (codes_test hn hsaid ha).written hpost⟩
  · rename_i hswap
    cases heq
    refine .inr ⟨hswap, ?_⟩
    cases b with
    | reg r =>
      obtain ⟨hsaid, hpost⟩ := run_inst_says h hrm ha
      refine ⟨?_, (codes_test hn hsaid hb).written hpost⟩
      obtain ⟨r, rfl⟩ | ⟨m, rfl⟩ := rmOf?_cases hrm <;> rfl
    | imm v =>
      obtain ⟨_, mid, hinst, himm⟩ := run_bind_eq_ok.1 h
      obtain ⟨hsaid, rfl⟩ := run_inst_says hinst hrm ha
      obtain ⟨hv, h8, rfl⟩ := run_outImm hn himm
      exact ⟨fitsPair_imm hrm h8, (codes_test_imm hn hsaid hv).written (by simp)⟩
    | mem | label => exact absurd h run_throw_ne_ok

/-- What a move means: nothing between equal operands, and the address of a label if that is the source. -/
def moved (dist : Label → BitVec 32) (n : Nat) (dst src : Operand) : List Coded :=
  match dst, src with
  | .reg r, .label l => [.leaCode r (dist l)]
  | dst, src => if dst = src then [] else [.plain (.mov n dst src)]

theorem run_instPlus {op : Nat} (h : (instPlus n op r).run pre = (.ok u, post)) :
    post = pre ++ (plusBytes n op r).map Piece.byte := by
  simp only [instPlus, run_bind_eq_ok, run_out_eq_ok] at h
  obtain ⟨-, -, rfl, rfl⟩ := h
  simp [plusBytes]

theorem outMov_imm (hn : n = 1 ∨ n = 2 ∨ n = 4) : outMov n (.reg r) (.imm v) = (do
    instPlus n (if n = 1 then 0xB0 else 0xB8) r
    outImm n v) := by
  rcases hn with rfl | rfl | rfl <;> rfl

theorem written_outMov_imm (hn : IsSize n) (hr : IsGpr r) (h : (outMov n (.reg r) (.imm v)).run pre = (.ok u, post)) :
    Written dist pre post [.plain (.mov n (.reg r) (.imm v))] := by
  by_cases h8 : n = 8
  · subst h8
    simp only [outMov] at h
    split at h
    · obtain ⟨_, mid, hinst, himm⟩ := run_bind_eq_ok.1 h
      obtain ⟨hsaid, rfl⟩ := run_inst_says hinst (o := .reg r) (n := 8) rfl hr
      obtain ⟨hv, -, rfl⟩ := run_outImm hn himm
      exact (codes_mov_imm hn hsaid hv).written (by simp)
    · split at h
      · rename_i hhalf
        obtain ⟨_, mid, hplus, hout⟩ := run_bind_eq_ok.1 h
        obtain rfl := run_instPlus hplus
        obtain rfl := run_out_eq_ok.1 hout
        exact (codes_mov_half hr hhalf).written (by simp)
      · obtain ⟨_, mid, hplus, hout⟩ := run_bind_eq_ok.1 h
        obtain rfl := run_instPlus hplus
        obtain rfl := run_out_eq_ok.1 hout
        exact (codes_mov_plus hn hr).written (by simp)
  · have h4 : n = 1 ∨ n = 2 ∨ n = 4 := by unfold IsSize at hn; omega
    rw [outMov_imm h4] at h
    obtain ⟨_, mid, hplus, himm⟩ := run_bind_eq_ok.1 h
    obtain rfl := run_instPlus hplus
    obtain ⟨-, -, rfl⟩ := run_outImm hn himm
    rw [show min n 4 = n by omega]
    exact (codes_mov_plus hn hr).written (by simp)

theorem written_outMov (hn : IsSize n) (hdst : dst.IsGpr) (hsrc : src.IsGpr)
    (h : (outMov n dst src).run pre = (.ok u, post)) : Written dist pre post (moved dist n dst src) := by
  have hrun := h
  unfold outMov at h
  split at h
  case h_1 d s =>
    split at h
    · rename_i heq
      subst heq
      obtain ⟨-, rfl⟩ := run_pure_eq_ok.1 h
      exact ⟨[], [], by simp, by simp, by simpa [moved] using Spells.nil⟩
    · rename_i hne
      obtain ⟨hsaid, hpost⟩ := run_inst_says h (o := .reg d) (n := n) rfl hdst
      have hmoved : moved dist n (.reg d) (.reg s) = [.plain (.mov n (.reg d) (.reg s))] := if_neg (by simpa using hne)
      rw [hmoved]
      exact (codes_mov_store hn hsaid hsrc).written hpost
  case h_2 m s =>
    obtain ⟨hsaid, hpost⟩ := run_inst_says h (o := .mem m) (n := n) rfl hdst
    exact (codes_mov_store hn hsaid hsrc).written hpost
  case h_3 d m =>
    obtain ⟨hsaid, hpost⟩ := run_inst_says h (o := .mem m) (n := n) rfl hsrc
    exact (codes_mov_load hn hsaid hdst).written hpost
  case h_4 d v => exact written_outMov_imm dist hn hdst hrun
  case h_5 m v =>
    obtain ⟨_, mid, hinst, himm⟩ := run_bind_eq_ok.1 h
    obtain ⟨hsaid, rfl⟩ := run_inst_says hinst (o := .mem m) (n := n) rfl hdst
    obtain ⟨hv, h8, rfl⟩ := run_outImm hn himm
    exact (codes_mov_imm hn hsaid hv).written (by simp)
  case h_6 d l =>
    obtain ⟨-, rfl⟩ := run_inst h
    exact ⟨_, [l], rfl, by simp, by simpa [moved] using (codes_leaCode (dist l) l hdst).spells⟩
  case h_7 => exact absurd h run_throw_ne_ok

theorem isSize_of_width {k : Kind} (h : width k = .ok n) : IsSize n ∧ size? k = some n := by
  refine ⟨?_, by rw [size?, h]; rfl⟩
  unfold width at h
  split at h
  · rename_i hk
    cases h
    exact hk
  · cases h

theorem operand_cases {x : Expr} (h : operand x = .ok o) : (∃ k r ro, x = .reg ⟨k, .hard r, ro⟩ ∧ o = .reg r) ∨
    (∃ k ro m, x = .memAt k ro m ∧ o = .mem m) ∨ (∃ c v, x = .const c ∧ o = .imm v) ∨ ∃ l, x = .label l ∧ o = .label l := by
  cases x with
  | reg r =>
    obtain ⟨k, id, ro⟩ := r
    cases id with
    | soft => cases h
    | hard r =>
      simp only [operand] at h
      split at h <;> cases h
      exact .inl ⟨k, r, ro, rfl, rfl⟩
  | memAt k ro m =>
    cases h
    exact .inr (.inl ⟨k, ro, m, rfl, rfl⟩)
  | const c =>
    simp only [operand] at h
    cases hv : immediate c <;> rw [hv] at h <;> cases h
    exact .inr (.inr (.inl ⟨c, _, rfl, rfl⟩))
  | label l =>
    cases h
    exact .inr (.inr (.inr ⟨l, rfl, rfl⟩))
  | mem | unary | binary | ret | call => cases h

theorem operand_eq_label {x : Expr} {l : Label} (h : operand x = .ok (.label l)) : x = .label l := by
  obtain ⟨k, r, ro, rfl, ho⟩ | ⟨k, ro, m, rfl, ho⟩ | ⟨c, v, rfl, ho⟩ | ⟨l, rfl, ho⟩ := operand_cases h <;> cases ho
  rfl

theorem isGpr_operand {x : Expr} (hx : x.UsesGpr) (h : operand x = .ok o) : o.IsGpr ∧ operand? x = some o := by
  refine ⟨?_, by rw [operand?, h]; rfl⟩
  obtain ⟨k, r, ro, rfl, rfl⟩ | ⟨k, ro, m, rfl, rfl⟩ | ⟨c, v, rfl, rfl⟩ | ⟨l, rfl, rfl⟩ := operand_cases h
  · exact hx r rfl
  · exact hx
  · trivial
  · trivial

/-- The label whose address an expression is. -/
def addressed : Expr → Option Label
  | .label l => some l
  | .unary .cast _ (.label l) => some l
  | _ => none

theorem denoteAssign_cast {k kz : Kind} {x z : Expr} {g : Nat} (hx : operand? x = some (.reg r))
    (hn : size? kz = some n) (hg : size? z.kind = some g) (hz : operand? z = some src) :
    denoteAssign k x (.unary .cast kz z) = some (
      if g < n then [.extend n r g z.kind.isSigned src] else if Operand.reg r = src then [] else [.mov n (.reg r) src]) := by
  simp only [denoteAssign, hx, hn, hg, hz, Option.bind_eq_bind, Option.bind_some]
  split
  · rfl
  · split <;> rfl

theorem moved_eq (h : ∀ l, src ≠ .label l) :
    moved dist n dst src = (if dst = src then [] else [.mov n dst src]).map Coded.plain := by
  have hmoved : moved dist n dst src = if dst = src then [] else [.plain (.mov n dst src)] := by
    unfold moved
    split
    · exact absurd rfl (h _)
    · rfl
  rw [hmoved]
  split <;> rfl

theorem written_extend {g : Nat} {signed : Bool} (hn : n = 2 ∨ n = 4 ∨ n = 8) (hg : g = 1 ∨ g = 2)
    (hrm : rmOf? src g = some rm) (hsrc : src.IsGpr) (hr : IsGpr r)
    (h : (inst n [0x0F, extendOpcode g signed] (.reg r n) rm).run pre = (.ok u, post)) :
    Written dist pre post [.plain (.extend n r g signed src)] := by
  obtain ⟨hsaid, hpost⟩ := run_inst_says h hrm hsrc
  exact (codes_extend signed hn hg hsaid hr).written hpost

theorem written_outCast {k kz : Kind} {x z : Expr} (hz : z.UsesGpr) (hdst : dst.IsGpr) (hx : operand? x = some dst)
    (h : (outCast dst kz z).run pre = (.ok u, post)) :
    (∃ r l, dst = .reg r ∧ z = .label l ∧ Written dist pre post [.leaCode r (dist l)]) ∨
      (∀ l, z ≠ .label l) ∧ ∃ is, denoteAssign k x (.unary .cast kz z) = some is ∧
      Written dist pre post (is.map .plain) := by
  unfold outCast at h
  simp only [run_bind_eq_ok, run_lift_eq_ok] at h
  obtain ⟨n, _, ⟨hn, rfl⟩, g, _, ⟨hg, rfl⟩, h⟩ := h
  obtain ⟨hnsize, hn⟩ := isSize_of_width hn
  obtain ⟨hgsize, hg⟩ := isSize_of_width hg
  cases dst with
  | mem | imm | label => exact absurd h run_throw_ne_ok
  | reg r =>
    simp only [run_bind_eq_ok, run_lift_eq_ok] at h
    obtain ⟨src, _, ⟨hs, rfl⟩, h⟩ := h
    obtain ⟨hsrc, hs'⟩ := isGpr_operand hz hs
    have hdenote := denoteAssign_cast (k := k) hx hn hg hs'
    split at h
    · rename_i hle
      have hwritten := written_outMov dist hnsize hdst hsrc h
      by_cases hlabel : ∃ l, src = .label l
      · obtain ⟨l, rfl⟩ := hlabel
        exact .inl ⟨r, l, rfl, operand_eq_label hs, hwritten⟩
      · rw [moved_eq dist fun l hl => hlabel ⟨l, hl⟩] at hwritten
        refine .inr ⟨?_, _, by rw [hdenote, if_neg (by omega)], hwritten⟩
        rintro l rfl
        exact hlabel ⟨l, by cases hs; rfl⟩
    · rename_i hlt
      simp only [run_bind_eq_ok, run_lift_eq_ok] at h
      obtain ⟨rm, _, ⟨hrm, rfl⟩, h⟩ := h
      replace hrm := rmOr_eq_ok hrm
      refine .inr ⟨?_, _, by rw [hdenote, if_pos (by omega)], ?_⟩
      · rintro l rfl
        cases hs
        cases hrm
      · have hwide : n = 2 ∨ n = 4 ∨ n = 8 := by unfold IsSize at hnsize hgsize; omega
        generalize z.kind.isSigned = signed at h ⊢
        split at h
        · exact written_extend dist hwide (.inl rfl) hrm hsrc hdst h
        · exact written_extend dist hwide (.inl rfl) hrm hsrc hdst h
        · exact written_extend dist hwide (.inr rfl) hrm hsrc hdst h
        · exact written_extend dist hwide (.inr rfl) hrm hsrc hdst h
        · obtain rfl : n = 8 := by omega
          obtain ⟨hsaid, hpost⟩ := run_inst_says h hrm hsrc
          exact (codes_extend_word hsaid hdst).written hpost
        · obtain rfl : n = 8 := by omega
          obtain ⟨hsaid, hpost⟩ := run_inst_says h hrm hsrc
          exact (codes_extend_half hsaid hdst).written hpost
        · exact absurd h run_throw_ne_ok

theorem written_outMul (hn : IsSize n) (hdst : dst.IsGpr) (hsrc : src.IsGpr)
    (h : (outMul n dst src).run pre = (.ok u, post)) :
    ∃ r, dst = .reg r ∧ n ≠ 1 ∧ fitsOperand n src = true ∧ Written dist pre post [.plain (.mul n r src)] := by
  cases dst with
  | mem | imm | label => exact absurd h run_throw_ne_ok
  | reg r =>
    simp only [outMul] at h
    split at h
    · exact absurd h run_throw_ne_ok
    · rename_i h1
      have hw : n = 2 ∨ n = 4 ∨ n = 8 := by unfold IsSize at hn; omega
      refine ⟨r, rfl, h1, ?_⟩
      cases src with
      | imm v =>
        dsimp only at h
        split at h
        · rename_i hbyte
          obtain ⟨_, mid, hinst, himm⟩ := run_bind_eq_ok.1 h
          obtain ⟨hsaid, rfl⟩ := run_inst_says hinst (o := .reg r) (n := n) rfl hdst
          obtain ⟨-, -, rfl⟩ := run_outImm (n := 1) (by simp [IsSize]) himm
          have hv : sext 1 v = v := by simpa [fitsByte, sext] using hbyte
          exact ⟨by simp [fitsOperand, fitsDword_of_fitsByte hbyte],
            (codes_mul_imm hw (.inl ⟨rfl, rfl⟩) hdst (by rw [hv])).written (by simp)⟩
        · obtain ⟨_, mid, hinst, himm⟩ := run_bind_eq_ok.1 h
          obtain ⟨hsaid, rfl⟩ := run_inst_says hinst (o := .reg r) (n := n) rfl hdst
          obtain ⟨hv, h8, rfl⟩ := run_outImm hn himm
          refine ⟨?_, (codes_mul_imm hw (.inr ⟨rfl, rfl⟩) hdst hv).written (by simp)⟩
          by_cases hn8 : n = 8
          · simp [fitsOperand, h8 hn8]
          · simp [fitsOperand, hn8]
      | reg | mem =>
        simp only [run_bind_eq_ok, run_lift_eq_ok] at h
        obtain ⟨rm, _, ⟨hrm, rfl⟩, h⟩ := h
        obtain ⟨hsaid, hpost⟩ := run_inst_says h (rmOr_eq_ok hrm) hsrc
        exact ⟨rfl, (codes_mul hw hsaid hdst).written hpost⟩
      | label =>
        simp only [run_bind_eq_ok, run_lift_eq_ok] at h
        obtain ⟨rm, _, ⟨hrm, -⟩, -⟩ := h
        cases rmOr_eq_ok hrm

theorem written_outShift {i : Instr} (hn : IsSize n) (hd : d < 8) (hdst : dst.IsGpr) (hi : shiftOf? n dst src d = some i)
    (h : (outShift n d dst src).run pre = (.ok u, post)) :
    ((∃ v, src = .imm v) ∨ src = .reg rcx) ∧ Written dist pre post [.plain i] := by
  unfold outShift at h
  simp only [run_bind_eq_ok, run_lift_eq_ok] at h
  obtain ⟨rm, _, ⟨hrm, rfl⟩, h⟩ := h
  replace hrm := rmOr_eq_ok hrm
  cases src with
  | imm v =>
    obtain ⟨_, mid, hinst, himm⟩ := run_bind_eq_ok.1 h
    obtain ⟨hsaid, rfl⟩ := run_inst_says hinst hrm hdst
    obtain ⟨-, -, rfl⟩ := run_outImm (n := 1) (by simp [IsSize]) himm
    exact ⟨.inl ⟨v, rfl⟩, (codes_shift_imm hn hd hi hsaid).written (by simp)⟩
  | reg r =>
    dsimp only at h
    split at h
    · rename_i hr
      subst hr
      obtain ⟨hsaid, hpost⟩ := run_inst_says h hrm hdst
      exact ⟨.inr rfl, (codes_shift hn hd hi hsaid).written hpost⟩
    · exact absurd h run_throw_ne_ok
  | mem | label => exact absurd h run_throw_ne_ok

theorem run_throw_bind_ne_ok {err : Error} {f : Unit → Emit Unit} : ¬(throw err >>= f).run pre = (.ok u, post) := by
  rw [run_bind_eq_ok]
  rintro ⟨_, _, h, -⟩
  exact run_throw_ne_ok h

/-- The extension of the dividend, the division, and the move of a remainder. -/
theorem written_division {isRem signed : Bool} (hn : n = 2 ∨ n = 4 ∨ n = 8) (hsrc : src.IsGpr) (hrm : rmOf? src n = some rm)
    {first : List Byte} {i : Instr} (hfirst : Codes first (.plain i))
    (h : (do
      out first
      inst n [0xF7] (.digit (if signed then 7 else 6)) rm
      if isRem then inst n [0x89] (.reg rdx n) (.reg rax n) : Emit Unit).run pre = (.ok u, post)) :
    Written dist pre post (List.map .plain ([i, .div n signed src] ++
      if isRem then [.mov n (.reg rax) (.reg rdx)] else [])) := by
  have h1 : n ≠ 1 := by omega
  have hsize : IsSize n := by unfold IsSize; omega
  obtain ⟨_, _, hout, h⟩ := run_bind_eq_ok.1 h
  obtain rfl := run_out_eq_ok.1 hout
  obtain ⟨_, _, hinst, h⟩ := run_bind_eq_ok.1 h
  obtain ⟨hsaid, rfl⟩ := run_inst_says hinst hrm hsrc
  have hdiv : Codes (instBytes n [0xF7] (.digit (if signed then 7 else 6)) rm) (.plain (.div n signed src)) := by
    have hcodes := codes_unary (d := if signed then 7 else 6) (i := .div n signed src) hsize (by split <;> decide)
      (by cases signed <;> exact if_neg h1) hsaid
    rwa [if_neg h1] at hcodes
  cases isRem with
  | false =>
    obtain ⟨-, rfl⟩ := run_pure_eq_ok.1 h
    exact ⟨first ++ instBytes n [0xF7] (.digit (if signed then 7 else 6)) rm, [], by simp, by simp,
      by simpa using Spells.cons hfirst hdiv.spells⟩
  | true =>
    rw [if_pos rfl] at h
    obtain ⟨hmov, rfl⟩ := run_inst_says h (o := .reg rax) (n := n) rfl (show IsGpr rax by decide)
    have hcodes := codes_mov_store hsize hmov (show IsGpr rdx by decide)
    rw [if_neg h1] at hcodes
    exact ⟨first ++ (instBytes n [0xF7] (.digit (if signed then 7 else 6)) rm ++
        instBytes n [0x89] (.reg rdx n) (.reg rax n)),
      [], by simp, by simp, by simpa using Spells.cons hfirst (.cons hdiv hcodes.spells)⟩

theorem written_outDivide {isRem : Bool} {k : Kind} (hsrc : src.IsGpr)
    (h : (outDivide isRem k dst src).run pre = (.ok u, post)) : ∃ n rm, size? k = some n ∧
      ¬(n = 1 ∨ dst ≠ .reg rax ∨ src = .reg rax ∨ src = .reg rdx) ∧ rmOf? src n = some rm ∧
      Written dist pre post (List.map .plain
        ([if k.isSigned then .extendRax n else .alu .xor 4 (.reg rdx) (.reg rdx), .div n k.isSigned src] ++
          if isRem then [.mov n (.reg rax) (.reg rdx)] else [])) := by
  unfold outDivide at h
  simp only [run_bind_eq_ok, run_lift_eq_ok] at h
  obtain ⟨n, _, ⟨hn, rfl⟩, h⟩ := h
  obtain ⟨hnsize, hn⟩ := isSize_of_width hn
  by_cases hrax : dst = .reg rax
  case neg =>
    rw [if_pos hrax] at h
    exact absurd h run_throw_bind_ne_ok
  rw [if_neg (not_not_intro hrax)] at h
  by_cases h1 : n = 1
  · rw [if_pos h1] at h
    exact absurd h run_throw_bind_ne_ok
  rw [if_neg h1] at h
  by_cases hfixed : src = .reg rax ∨ src = .reg rdx
  · rw [if_pos hfixed] at h
    exact absurd h run_throw_bind_ne_ok
  rw [if_neg hfixed] at h
  obtain ⟨rm, mid, hlift, hrun⟩ := run_bind_eq_ok.1 h
  clear h
  obtain ⟨hrm, rfl⟩ := run_lift_eq_ok.1 hlift
  replace hrm := rmOr_eq_ok hrm
  have hw : n = 2 ∨ n = 4 ∨ n = 8 := by unfold IsSize at hnsize; omega
  refine ⟨n, rm, hn, by tauto, hrm, ?_⟩
  generalize k.isSigned = signed at hrun ⊢
  cases signed with
  | true =>
    rw [if_pos rfl] at hrun
    exact written_division dist hw hsrc hrm (codes_extendRax n hw) hrun
  | false =>
    rw [if_neg Bool.false_ne_true] at hrun
    exact written_division dist hw hsrc hrm codes_clear hrun

/-! ## Nodes -/

/-- What an expression of selected code means, under given distances of labels. -/
def intended (dist : Label → BitVec 32) : Expr → Option (List Coded)
  | .label _ => some []
  | .unary .jump _ (.label l) => some [.jump (dist l)]
  | .unary (.jcc c) _ (.label l) => some [.jcc c (dist l)]
  | .binary .assign k x y =>
    match addressed y with
    | some l =>
      match operand? x with
      | some (.reg r) => some [.leaCode r (dist l)]
      | _ => none
    | none => (denoteAssign k x y).map (·.map .plain)
  | .ret [] => some [.ret]
  | .call l _ _ [] => some [.call (dist l)]
  | e => (denote e).map (·.map .plain)

/-! ### Sizes of operands -/

/-- The size of the operands of an instruction. -/
def Instr.operandSize : Instr → Nat
  | mov n _ _ | lea n _ _ | extend n _ _ _ _ | alu _ n _ _ | inc n _ | dec n _ | neg n _ | inv n _ | mul n _ _
  | shift _ n _ _ | extendRax n | div n _ _ | cmp n _ _ | test n _ _ => n
  | setcc _ _ => 1
  | push _ | pop _ => 8

/-- The size of the operands of what bytes stand for, where there are operands. -/
def Coded.operandSize : Coded → Option Nat
  | plain i => some i.operandSize
  | leaCode _ _ => some 8
  | _ => none

/-- The size of the operands that a node asks for. -/
def askedSize? : Expr → Option Nat
  | .binary .assign _ _ (.unary .cast k _) | .binary .assign k _ _ => size? k
  | .binary (.compound op) k x _ =>
    match op with
    | .mul | .shl | .shr | .quo | .rem => size? k
    | _ => size? x.kind
  | .binary .cmp _ x _ | .binary .test _ x _ => size? x.kind
  | .unary .inc k _ | .unary .dec k _ | .unary .zero k _ => size? k
  | .unary (.setcc _) _ _ => some 1
  | .unary .push _ _ | .unary .pop _ _ => some 8
  | _ => none

/-- The sizes that do not come from the node: a register is cleared with four bytes, by itself or before a division; the
address of a label has eight bytes; and a `lea` of one byte is the one of four bytes. -/
def fixedSize? : Expr → Coded → Option Nat
  | .unary .zero _ _, .plain (.alu ..) | .binary (.compound .quo) _ _ _, .plain (.alu ..)
  | .binary (.compound .rem) _ _ _, .plain (.alu ..) => some 4
  | .binary .assign _ _ _, .leaCode .. => some 8
  | .binary .assign k _ _, .plain (.lea ..) => if size? k = some 1 then some 4 else none
  | _, _ => none

theorem operandSize_denoteAssign {k : Kind} {x y : Expr} {is : List Instr} (h : denoteAssign k x y = some is) : ∀ i ∈ is,
    (Coded.plain i).operandSize =
      (fixedSize? (.binary .assign k x y) (.plain i)).or (askedSize? (.binary .assign k x y)) := by
  unfold denoteAssign at h
  obtain ⟨dst, -, h⟩ := Option.bind_eq_some_iff.1 h
  split at h
  case h_1 =>
    obtain ⟨src, -, h⟩ := Option.bind_eq_some_iff.1 h
    split at h
    · obtain ⟨n, hn, ⟨⟩⟩ := Option.bind_eq_some_iff.1 h
      rw [List.forall_mem_singleton]
      by_cases h1 : n = 1 <;> simp [Coded.operandSize, Instr.operandSize, fixedSize?, askedSize?, leaSize, hn, h1]
    · cases h
  case h_2 | h_3 =>
    obtain ⟨-, h⟩ := Option.ite_none_right_eq_some.1 h
    obtain ⟨n, hn, ⟨⟩⟩ := Option.bind_eq_some_iff.1 h
    rw [List.forall_mem_singleton]
    exact hn.symm
  case h_4 =>
    obtain ⟨n, hn, h⟩ := Option.bind_eq_some_iff.1 h
    obtain ⟨g, -, h⟩ := Option.bind_eq_some_iff.1 h
    obtain ⟨src, -, h⟩ := Option.bind_eq_some_iff.1 h
    split at h
    · split at h
      · cases h
        rw [List.forall_mem_singleton]
        exact hn.symm
      · split at h <;> cases h
        · simp
        · rw [List.forall_mem_singleton]
          exact hn.symm
    · cases h
  case h_5 hlea _ _ hcast =>
    have hasked : askedSize? (.binary .assign k x y) = size? k := by
      unfold askedSize?
      split
      all_goals simp_all
    obtain ⟨src, -, h⟩ := Option.bind_eq_some_iff.1 h
    have hmov : ∀ {n}, size? k = some n → ∀ i ∈ [Instr.mov n dst src], (Coded.plain i).operandSize =
        (fixedSize? (.binary .assign k x y) (.plain i)).or (askedSize? (.binary .assign k x y)) := by
      intro n hn
      rw [List.forall_mem_singleton, hasked]
      exact hn.symm
    split at h
    · cases h
      simp
    · split at h
      case h_1 | h_2 | h_3 => cases h
      case h_4 =>
        obtain ⟨n, hn, h⟩ := Option.bind_eq_some_iff.1 h
        obtain ⟨-, h⟩ := Option.ite_none_left_eq_some.1 h
        obtain ⟨n', hn', ⟨⟩⟩ := Option.bind_eq_some_iff.1 h
        exact hmov hn'
      case h_5 =>
        obtain ⟨n, hn, ⟨⟩⟩ := Option.bind_eq_some_iff.1 h
        exact hmov hn

theorem operandSize_denoteCompound {op : ArithOp} {k : Kind} {x y : Expr} {is : List Instr}
    (h : denoteCompound op k x y = some is) : ∀ i ∈ is, (Coded.plain i).operandSize =
      (fixedSize? (.binary (.compound op) k x y) (.plain i)).or (askedSize? (.binary (.compound op) k x y)) := by
  unfold denoteCompound at h
  obtain ⟨dst, -, h⟩ := Option.bind_eq_some_iff.1 h
  obtain ⟨src, -, h⟩ := Option.bind_eq_some_iff.1 h
  cases op with
  | add | sub | and | or | xor =>
    obtain ⟨n, hn, h⟩ := Option.bind_eq_some_iff.1 h
    obtain ⟨-, ⟨⟩⟩ := Option.ite_none_right_eq_some.1 h
    rw [List.forall_mem_singleton]
    exact hn.symm
  | andNot => cases h
  | mul =>
    obtain ⟨n, hn, h⟩ := Option.bind_eq_some_iff.1 h
    split at h
    · obtain ⟨-, ⟨⟩⟩ := Option.ite_none_right_eq_some.1 h
      rw [List.forall_mem_singleton]
      exact hn.symm
    · cases h
  | shl | shr =>
    dsimp only at h
    split at h
    · obtain ⟨n, hn, ⟨⟩⟩ := Option.bind_eq_some_iff.1 h
      rw [List.forall_mem_singleton]
      exact hn.symm
    · obtain ⟨-, h⟩ := Option.ite_none_right_eq_some.1 h
      obtain ⟨n, hn, ⟨⟩⟩ := Option.bind_eq_some_iff.1 h
      rw [List.forall_mem_singleton]
      exact hn.symm
    · cases h
  | quo | rem =>
    obtain ⟨n, hn, h⟩ := Option.bind_eq_some_iff.1 h
    obtain ⟨-, h⟩ := Option.ite_none_left_eq_some.1 h
    split at h
    case h_3 => cases h
    all_goals
      cases h
      simp only [List.cons_append, List.nil_append, List.forall_mem_cons]
      refine ⟨?_, hn.symm, ?_⟩
      · cases k.isSigned <;> simp [Coded.operandSize, Instr.operandSize, fixedSize?, askedSize?, hn]
      · simp [Coded.operandSize, Instr.operandSize, fixedSize?, askedSize?, hn]

theorem operandSize_denote {e : Expr} {is : List Instr} (h : denote e = some is) :
    ∀ i ∈ is, (Coded.plain i).operandSize = (fixedSize? e (.plain i)).or (askedSize? e) := by
  unfold denote at h
  split at h
  case h_1 => exact operandSize_denoteAssign h
  case h_2 => exact operandSize_denoteCompound h
  case h_3 =>
    obtain ⟨n, hn, h⟩ := Option.bind_eq_some_iff.1 h
    obtain ⟨a, -, h⟩ := Option.bind_eq_some_iff.1 h
    obtain ⟨b, -, h⟩ := Option.bind_eq_some_iff.1 h
    obtain ⟨-, ⟨⟩⟩ := Option.ite_none_right_eq_some.1 h
    rw [List.forall_mem_singleton]
    exact hn.symm
  case h_4 =>
    obtain ⟨n, hn, h⟩ := Option.bind_eq_some_iff.1 h
    obtain ⟨a, -, h⟩ := Option.bind_eq_some_iff.1 h
    obtain ⟨b, -, h⟩ := Option.bind_eq_some_iff.1 h
    split at h
    · cases h
      rw [List.forall_mem_singleton]
      exact hn.symm
    · obtain ⟨-, ⟨⟩⟩ := Option.ite_none_right_eq_some.1 h
      rw [List.forall_mem_singleton]
      exact hn.symm
  case h_5 op k x =>
    obtain ⟨dst, -, h⟩ := Option.bind_eq_some_iff.1 h
    split at h
    case h_5 | h_7 | h_8 | h_9 | h_10 =>
      cases h
      rw [List.forall_mem_singleton]
      rfl
    case h_11 => cases h
    all_goals
      obtain ⟨n, hn, ⟨⟩⟩ := Option.bind_eq_some_iff.1 h
      rw [List.forall_mem_singleton]
      exact hn.symm
  case h_6 => cases h

/-- The operands have the size that the node asks for, apart from the forms of `fixedSize?`. -/
theorem operandSize_intended {dist : Label → BitVec 32} {e : Expr} {is : List Coded} (h : intended dist e = some is) :
    ∀ c ∈ is, c.operandSize = (fixedSize? e c).or (askedSize? e) := by
  unfold intended at h
  split at h
  case h_1 =>
    cases h
    simp
  case h_4 k x y =>
    split at h
    · split at h
      · cases h
        rw [List.forall_mem_singleton]
        rfl
      · cases h
    · obtain ⟨js, hjs, rfl⟩ := Option.map_eq_some_iff.1 h
      rw [List.forall_mem_map]
      exact operandSize_denoteAssign hjs
  case h_7 =>
    obtain ⟨js, hjs, rfl⟩ := Option.map_eq_some_iff.1 h
    rw [List.forall_mem_map]
    exact operandSize_denote hjs
  all_goals
    cases h
    rw [List.forall_mem_singleton]
    rfl

/-- What was written reads as what the expression means. -/
def Reads (dist : Label → BitVec 32) (e : Expr) (pre post : List Piece) : Prop :=
  ∃ cs, intended dist e = some cs ∧ Written dist pre post cs

/-- The destination and source of a move that is neither within memory nor of a label. -/
theorem outMov_cases (hn : IsSize n) (hlabel : ∀ l, src ≠ .label l) (h : (outMov n dst src).run pre = (.ok u, post)) :
    (∃ r, dst = .reg r) ∨ (∃ m r, dst = .mem m ∧ src = .reg r) ∨
      ∃ m v, dst = .mem m ∧ src = .imm v ∧ (n = 8 → fitsDword v = true) := by
  unfold outMov at h
  split at h
  case h_2 m s => exact .inr (.inl ⟨m, s, rfl, rfl⟩)
  case h_5 m v =>
    obtain ⟨_, mid, -, himm⟩ := run_bind_eq_ok.1 h
    exact .inr (.inr ⟨m, v, rfl, rfl, (run_outImm hn himm).2.1⟩)
  case h_7 => exact absurd h run_throw_ne_ok
  all_goals exact .inl ⟨_, rfl⟩

theorem denoteAssign_mov {k : Kind} {x y : Expr} (hx : operand? x = some dst) (hy : operand y = .ok src)
    (hk : size? k = some n) (hn : IsSize n) (hlabel : ∀ l, src ≠ .label l) (h : (outMov n dst src).run pre = (.ok u, post)) :
    denoteAssign k x y = some (if dst = src then [] else [.mov n dst src]) := by
  have hy' : operand? y = some src := by rw [operand?, hy]; rfl
  have hsize : ∀ {v}, (n = 8 → fitsDword v = true) → ¬(n = 8 ∧ (!fitsDword v) = true) := by
    rintro v hv ⟨h8, hno⟩
    simp [hv h8] at hno
  obtain ⟨r, rfl⟩ | ⟨m, r, rfl, rfl⟩ | ⟨m, v, rfl, rfl, hv⟩ := outMov_cases hn hlabel h
  · obtain ⟨k, r, ro, rfl, -⟩ | ⟨k, ro, m, rfl, -⟩ | ⟨c, v, rfl, -⟩ | ⟨l, rfl, -⟩ := operand_cases hy <;>
      simp only [denoteAssign, hx, hy', hk, Option.bind_eq_bind, Option.bind_some] <;>
      cases src <;> first | exact absurd rfl (hlabel _) | (split <;> rfl)
  · obtain ⟨k, r, ro, rfl, -⟩ | ⟨k, ro, m, rfl, -⟩ | ⟨c, v, rfl, -⟩ | ⟨l, rfl, -⟩ := operand_cases hy <;>
      simp only [denoteAssign, hx, hy', hk, Option.bind_eq_bind, Option.bind_some] <;> split <;> rfl
  · obtain ⟨k, r, ro, rfl, -⟩ | ⟨k, ro, m, rfl, -⟩ | ⟨c, v, rfl, -⟩ | ⟨l, rfl, -⟩ := operand_cases hy <;>
      simp only [denoteAssign, hx, hy', hk, Option.bind_eq_bind, Option.bind_some, reduceCtorEq, if_false,
        if_neg (hsize hv)]

theorem reads_move {k : Kind} {x y : Expr} (hx : operand? x = some dst) (hdst : dst.IsGpr) (hy : y.UsesGpr)
    (hk : size? k = some n) (hn : IsSize n) (hsrc : operand y = .ok src) (h : (outMov n dst src).run pre = (.ok u, post)) :
    Reads dist (.binary .assign k x y) pre post := by
  obtain ⟨hgpr, -⟩ := isGpr_operand hy hsrc
  have hwritten := written_outMov dist hn hdst hgpr h
  by_cases hlabel : ∃ l, src = .label l
  · obtain ⟨l, rfl⟩ := hlabel
    obtain rfl := operand_eq_label hsrc
    cases dst with
    | reg r => exact ⟨_, by simp only [intended, addressed, hx]; rfl, hwritten⟩
    | mem | imm | label => exact absurd h run_throw_ne_ok
  · have hno : ∀ l, src ≠ .label l := fun l hl => hlabel ⟨l, hl⟩
    have haddressed : addressed y = none := by
      obtain ⟨k, r, ro, rfl, -⟩ | ⟨k, ro, m, rfl, -⟩ | ⟨c, v, rfl, -⟩ | ⟨l, rfl, rfl⟩ := operand_cases hsrc
      · rfl
      · rfl
      · rfl
      · exact absurd rfl (hno l)
    rw [moved_eq dist hno] at hwritten
    exact ⟨_, by simp only [intended, haddressed, denoteAssign_mov hx hsrc hk hn hno h]; rfl, hwritten⟩

theorem destination_eq_ok {x : Expr} (h : destination x n = .ok rm) : ∃ o, operand x = .ok o ∧ rmOf? o n = some rm := by
  unfold destination at h
  cases ho : operand x with
  | error =>
    rw [ho] at h
    cases h
  | ok o =>
    rw [ho] at h
    refine ⟨o, rfl, ?_⟩
    cases hrm : rmOf? o n with
    | none =>
      simp only [bind, Except.bind, hrm] at h
      cases h
    | some rm' =>
      simp only [bind, Except.bind, hrm] at h
      cases h
      rfl

/-- An operation on an operand in place. -/
theorem run_inPlace {x z : Expr} {err : Error} (hx : operand x = .ok dst) (hdst : dst.IsGpr) (h : (do
      if (← operand z) ≠ dst then throw err
      let rm ← destination x n
      inst n [if n = 1 then 0xF6 else 0xF7] (.digit d) rm : Emit Unit).run pre = (.ok u, post)) :
    operand? z = some dst ∧ ∀ {i : Instr}, IsSize n → d < 8 → unaryOf? n dst d = some i →
      Written dist pre post [.plain i] := by
  simp only [run_bind_eq_ok, run_lift_eq_ok] at h
  obtain ⟨o, _, ⟨hz, rfl⟩, h⟩ := h
  by_cases ho : o = dst
  case neg =>
    rw [if_pos ho] at h
    exact absurd h run_throw_bind_ne_ok
  rw [if_neg (not_not_intro ho)] at h
  simp only [run_bind_eq_ok, run_lift_eq_ok] at h
  obtain ⟨rm, _, ⟨hrm, rfl⟩, h⟩ := h
  obtain ⟨o', ho', hrm⟩ := destination_eq_ok hrm
  rw [hx] at ho'
  cases ho'
  refine ⟨by rw [operand?, hz, ho]; rfl, fun hn hd hi => ?_⟩
  obtain ⟨hsaid, hpost⟩ := run_inst_says h hrm hdst
  exact (codes_unary hn hd hi hsaid).written hpost

theorem reads_assign {k : Kind} {x y : Expr} (hx : x.UsesGpr) (hy : y.UsesGpr)
    (h : (outAssign k x y).run pre = (.ok u, post)) : Reads dist (.binary .assign k x y) pre post := by
  unfold outAssign at h
  simp only [run_bind_eq_ok, run_lift_eq_ok] at h
  obtain ⟨n, _, ⟨hn, rfl⟩, dst, _, ⟨hdst, rfl⟩, hrun⟩ := h
  replace hn := isSize_of_width hn
  obtain ⟨hnsize, hn⟩ := hn
  have hx' := isGpr_operand hx hdst
  obtain ⟨hgpr, hdst'⟩ := hx'
  split at hrun
  · rename_i op ky z
    split at hrun
    · simp only [run_bind_eq_ok, run_lift_eq_ok] at hrun
      obtain ⟨src, _, ⟨hz, rfl⟩, hrun⟩ := hrun
      replace hz := isGpr_operand (x := z) hy hz
      split at hrun
      · rename_i d m
        obtain ⟨hsaid, hpost⟩ := run_inst_says hrun (o := .mem m) (n := n) rfl hz.1
        refine ⟨_, ?_, (codes_lea hnsize hsaid hgpr).written hpost⟩
        simp [intended, addressed, denoteAssign, hdst', hz.2, hn]
      · exact absurd hrun run_throw_ne_ok
    · obtain ⟨hz, hcodes⟩ := run_inPlace dist hdst hgpr hrun
      refine ⟨_, ?_, hcodes hnsize (i := .neg n dst) (by decide) rfl⟩
      simp [intended, addressed, denoteAssign, hdst', hz, hn]
    · obtain ⟨hz, hcodes⟩ := run_inPlace dist hdst hgpr hrun
      refine ⟨_, ?_, hcodes hnsize (i := .inv n dst) (by decide) rfl⟩
      simp [intended, addressed, denoteAssign, hdst', hz, hn]
    · obtain ⟨r, l, rfl, rfl, hwritten⟩ | ⟨hno, is, hdenote, hwritten⟩ :=
        written_outCast dist (k := k) (z := z) hy hgpr hdst' hrun
      · exact ⟨_, by simp only [intended, addressed, hdst'], hwritten⟩
      · have haddressed : addressed (.unary .cast ky z) = none := by
          unfold addressed
          split <;> simp_all
        exact ⟨_, by simp only [intended, haddressed, hdenote]; rfl, hwritten⟩
    · exact absurd hrun run_throw_ne_ok
  · simp only [run_bind_eq_ok, run_lift_eq_ok] at hrun
    obtain ⟨src, _, ⟨hsrc, rfl⟩, hrun⟩ := hrun
    exact reads_move dist hdst' hgpr hy hn hnsize hsrc hrun

theorem jumpTarget_eq_ok {x : Expr} {l : Label} (h : jumpTarget x = .ok l) : x = .label l := by
  unfold jumpTarget at h
  split at h <;> cases h
  rfl

theorem reads_unary {op : UnaryOp} {k : Kind} {x : Expr} (hx : x.UsesGpr) (h : (outUnary op k x).run pre = (.ok u, post)) :
    Reads dist (.unary op k x) pre post := by
  cases op with
  | jump =>
    simp only [outUnary, run_bind_eq_ok, run_out_eq_ok, run_lift_eq_ok, run_outLabel_eq_ok] at h
    obtain ⟨_, _, rfl, l, _, ⟨hl, rfl⟩, rfl⟩ := h
    obtain rfl := jumpTarget_eq_ok hl
    exact ⟨_, rfl, [0xE9], [l], by simp, by simp, by simpa using (codes_jump (dist l)).spells⟩
  | jcc c =>
    simp only [outUnary, run_bind_eq_ok, run_out_eq_ok, run_lift_eq_ok, run_outLabel_eq_ok] at h
    obtain ⟨_, _, rfl, l, _, ⟨hl, rfl⟩, rfl⟩ := h
    obtain rfl := jumpTarget_eq_ok hl
    exact ⟨_, rfl, [0x0F, .ofNat 8 (0x80 + condCode c)], [l], by simp, by simp, by simpa using (codes_jcc (dist l) c).spells⟩
  | setcc c =>
    simp only [outUnary, run_bind_eq_ok, run_lift_eq_ok] at h
    obtain ⟨rm, _, ⟨hrm, rfl⟩, h⟩ := h
    obtain ⟨o, ho, hrm⟩ := destination_eq_ok hrm
    obtain ⟨hgpr, ho'⟩ := isGpr_operand hx ho
    obtain ⟨hsaid, hpost⟩ := run_inst_says h hrm hgpr
    refine ⟨_, ?_, (codes_setcc c hsaid).written hpost⟩
    obtain ⟨r, rfl⟩ | ⟨m, rfl⟩ := rmOf?_cases hrm <;> simp [intended, denote, ho']
  | inc | dec =>
    simp only [outUnary, run_bind_eq_ok, run_lift_eq_ok] at h
    obtain ⟨n, _, ⟨hn, rfl⟩, rm, _, ⟨hrm, rfl⟩, h⟩ := h
    obtain ⟨o, ho, hrm⟩ := destination_eq_ok hrm
    obtain ⟨hgpr, ho'⟩ := isGpr_operand hx ho
    obtain ⟨hsaid, hpost⟩ := run_inst_says h hrm hgpr
    obtain ⟨hnsize, hn⟩ := isSize_of_width hn
    refine ⟨_, ?_, (codes_step hnsize (by decide) rfl hsaid).written hpost⟩
    obtain ⟨r, rfl⟩ | ⟨m, rfl⟩ := rmOf?_cases hrm <;> simp [intended, denote, ho', hn]
  | push =>
    simp only [outUnary, run_bind_eq_ok, run_lift_eq_ok] at h
    obtain ⟨o, _, ⟨ho, rfl⟩, h⟩ := h
    obtain ⟨hgpr, ho'⟩ := isGpr_operand hx ho
    cases o with
    | reg r =>
      refine ⟨_, ?_, (codes_stack hgpr true).written (run_instPlus h)⟩
      simp [intended, denote, ho']
    | mem | imm | label => exact absurd h run_throw_ne_ok
  | pop =>
    simp only [outUnary, run_bind_eq_ok, run_lift_eq_ok] at h
    obtain ⟨o, _, ⟨ho, rfl⟩, h⟩ := h
    obtain ⟨hgpr, ho'⟩ := isGpr_operand hx ho
    cases o with
    | reg r =>
      refine ⟨_, ?_, (codes_stack hgpr false).written (run_instPlus h)⟩
      simp [intended, denote, ho']
    | mem | imm | label => exact absurd h run_throw_ne_ok
  | zero =>
    simp only [outUnary, run_bind_eq_ok, run_lift_eq_ok] at h
    obtain ⟨n, _, ⟨hn, rfl⟩, o, _, ⟨ho, rfl⟩, h⟩ := h
    obtain ⟨hgpr, ho'⟩ := isGpr_operand hx ho
    obtain ⟨hnsize, hn⟩ := isSize_of_width hn
    cases o with
    | reg r =>
      obtain ⟨hsaid, hpost⟩ := run_inst_says h (o := .reg r) (n := 4) rfl hgpr
      refine ⟨_, ?_, (codes_alu_store (d := 6) (i := .alu .xor 4 (.reg r) (.reg r)) (by simp [IsSize]) (by decide) rfl
        hsaid hgpr).written hpost⟩
      simp [intended, denote, ho']
    | mem m =>
      refine ⟨_, ?_, written_outMov dist hnsize hgpr (show (Operand.imm 0).IsGpr from trivial) h⟩
      simp [intended, denote, ho', hn, moved]
    | imm | label => exact absurd h run_throw_ne_ok
  | _ => exact absurd h run_throw_ne_ok

theorem reads_alu {op : BinaryOp} {k : Kind} {x y : Expr} (hd : aluDigit op = some d) (hx : x.UsesGpr) (hy : y.UsesGpr)
    (h : (outBinary op k x y).run pre = (.ok u, post)) : Reads dist (.binary op k x y) pre post := by
  unfold outBinary at h
  simp only [hd, run_bind_eq_ok, run_lift_eq_ok] at h
  obtain ⟨n, _, ⟨hn, rfl⟩, a, _, ⟨ha, rfl⟩, b, _, ⟨hb, rfl⟩, h⟩ := h
  obtain ⟨hnsize, hn⟩ := isSize_of_width hn
  obtain ⟨hagpr, ha⟩ := isGpr_operand hx ha
  obtain ⟨hbgpr, hb⟩ := isGpr_operand hy hb
  unfold aluDigit at hd
  split at hd <;> cases hd
  all_goals
    obtain ⟨hfits, hwritten⟩ := written_outAlu dist hnsize (by decide) hagpr hbgpr rfl h
    refine ⟨_, ?_, hwritten⟩
    simp [intended, denote, denoteCompound, ha, hb, hn, hfits]

theorem reads_test {k : Kind} {x y : Expr} (hx : x.UsesGpr) (hy : y.UsesGpr)
    (h : (outBinary .test k x y).run pre = (.ok u, post)) :
    Reads dist (.binary .test k x y) pre post := by
  unfold outBinary at h
  simp only [aluDigit, run_bind_eq_ok, run_lift_eq_ok] at h
  obtain ⟨n, _, ⟨hn, rfl⟩, a, _, ⟨ha, rfl⟩, b, _, ⟨hb, rfl⟩, h⟩ := h
  obtain ⟨hnsize, hn⟩ := isSize_of_width hn
  obtain ⟨hagpr, ha⟩ := isGpr_operand hx ha
  obtain ⟨hbgpr, hb⟩ := isGpr_operand hy hb
  obtain ⟨r, m, rfl, rfl, hwritten⟩ | ⟨hswap, hfits, hwritten⟩ := written_outTest dist hnsize hagpr hbgpr h
  · exact ⟨_, by simp [intended, denote, ha, hb, hn], hwritten⟩
  · refine ⟨_, ?_, hwritten⟩
    simp only [intended, denote, ha, hb, hn, Option.bind_eq_bind, Option.bind_some, if_pos hfits]
    rfl

theorem reads_shift {op : ArithOp} (shift : ShiftOp) {k : Kind} {x y : Expr} (hx : x.UsesGpr) (hy : y.UsesGpr) (hd : d < 8)
    (hshift : ∀ n dst count, shiftOf? n dst count d = some (.shift shift n dst count))
    (hdenote : ∀ n dst src, operand? x = some dst → operand? y = some src → size? k = some n →
      ((∃ v, src = .imm v) ∨ src = .reg rcx) → denoteCompound op k x y = some [.shift shift n dst src])
    (h : (do outShift (← width k) d (← operand x) (← operand y) : Emit Unit).run pre = (.ok u, post)) :
    Reads dist (.binary (.compound op) k x y) pre post := by
  simp only [run_bind_eq_ok, run_lift_eq_ok] at h
  obtain ⟨n, _, ⟨hn, rfl⟩, a, _, ⟨ha, rfl⟩, b, _, ⟨hb, rfl⟩, h⟩ := h
  obtain ⟨hnsize, hn⟩ := isSize_of_width hn
  obtain ⟨hagpr, ha⟩ := isGpr_operand hx ha
  obtain ⟨hbgpr, hb⟩ := isGpr_operand hy hb
  obtain ⟨hcount, hwritten⟩ := written_outShift dist hnsize hd hagpr (hshift n a b) h
  exact ⟨_, by simp only [intended, denote, hdenote n a b ha hb hn hcount]; rfl, hwritten⟩

theorem reads_compound {op : ArithOp} {k : Kind} {x y : Expr} (hx : x.UsesGpr) (hy : y.UsesGpr)
    (h : (outBinary (.compound op) k x y).run pre = (.ok u, post)) : Reads dist (.binary (.compound op) k x y) pre post := by
  cases op with
  | add | sub | and | or | xor => exact reads_alu dist rfl hx hy h
  | andNot => exact absurd h run_throw_ne_ok
  | mul =>
    unfold outBinary at h
    simp only [aluDigit, run_bind_eq_ok, run_lift_eq_ok] at h
    obtain ⟨n, _, ⟨hn, rfl⟩, a, _, ⟨ha, rfl⟩, b, _, ⟨hb, rfl⟩, h⟩ := h
    obtain ⟨hnsize, hn⟩ := isSize_of_width hn
    obtain ⟨hagpr, ha⟩ := isGpr_operand hx ha
    obtain ⟨hbgpr, hb⟩ := isGpr_operand hy hb
    obtain ⟨r, rfl, h1, hfits, hwritten⟩ := written_outMul dist hnsize hagpr hbgpr h
    exact ⟨_, by simp [intended, denote, denoteCompound, ha, hb, hn, h1, hfits], hwritten⟩
  | shl =>
    refine reads_shift dist .shl hx hy (by decide) (fun _ _ _ => rfl) ?_ h
    rintro n dst src ha hb hn (⟨v, rfl⟩ | rfl) <;> simp [denoteCompound, ha, hb, hn]
  | shr =>
    unfold outBinary at h
    simp only [aluDigit] at h
    cases hs : k.isSigned with
    | true =>
      rw [hs] at h
      refine reads_shift dist .sar hx hy (by decide) (fun _ _ _ => rfl) ?_ h
      rintro n dst src ha hb hn (⟨v, rfl⟩ | rfl) <;> simp [denoteCompound, ha, hb, hn, hs]
    | false =>
      rw [hs] at h
      refine reads_shift dist .shr hx hy (by decide) (fun _ _ _ => rfl) ?_ h
      rintro n dst src ha hb hn (⟨v, rfl⟩ | rfl) <;> simp [denoteCompound, ha, hb, hn, hs]
  | quo | rem =>
    unfold outBinary at h
    simp only [aluDigit, run_bind_eq_ok, run_lift_eq_ok] at h
    obtain ⟨a, _, ⟨ha, rfl⟩, b, _, ⟨hb, rfl⟩, h⟩ := h
    obtain ⟨-, ha⟩ := isGpr_operand hx ha
    obtain ⟨hbgpr, hb⟩ := isGpr_operand hy hb
    obtain ⟨n, rm, hn, hno, hrm, hwritten⟩ := written_outDivide dist hbgpr h
    refine ⟨_, ?_, hwritten⟩
    obtain ⟨r, rfl⟩ | ⟨m, rfl⟩ := rmOf?_cases hrm <;>
      simp only [intended, denote, denoteCompound, ha, hb, hn, Option.bind_eq_bind, Option.bind_some, if_neg hno] <;> rfl

/-- What an accepted expression has written reads as what it means. -/
theorem reads_instruction {e : Expr} (he : e.UsesGpr) (h : (instruction e).run pre = (.ok u, post)) :
    Reads dist e pre post := by
  cases e with
  | unary op k x => exact reads_unary dist he h
  | binary op k x y =>
    cases op with
    | assign => exact reads_assign dist he.1 he.2 h
    | compound op => exact reads_compound dist he.1 he.2 h
    | cmp => exact reads_alu dist rfl he.1 he.2 h
    | test => exact reads_test dist he.1 he.2 h
    | arith | compare | logic | jumpIf => exact absurd h run_throw_ne_ok
  | ret vs =>
    cases vs with
    | nil => exact ⟨_, rfl, codes_ret.written (run_out_eq_ok.1 h)⟩
    | cons => exact absurd h run_throw_ne_ok
  | call l n sig args =>
    cases args with
    | nil =>
      simp only [instruction, run_bind_eq_ok, run_out_eq_ok, run_outLabel_eq_ok] at h
      obtain ⟨_, _, rfl, rfl⟩ := h
      exact ⟨_, rfl, [0xE8], [l], by simp, by simp, by simpa using (codes_call (dist l)).spells⟩
    | cons => exact absurd h run_throw_ne_ok
  | const | reg | mem | memAt | label => exact absurd h run_throw_ne_ok

end Written

/-! ## Buffers -/

section Buffers

variable {b b' : Buffer} {log log' : Log}

theorem size_patch {place here : Nat} {x : Unit} (h : Assemble.patch place here b log = ((.ok x, b'), log')) :
    b'.code.size = b.code.size := by
  by_cases hfits : FieldFits place here
  · rw [patch_of_fits hfits] at h
    cases h
    exact size_overwrite b place _
  · rw [patch_of_not_fits hfits] at h
    cases h

theorem size_patchAll {l : Label} {here : Nat} {xs : List Fixup} {x : Unit}
    (h : (xs.forM fun x => do note (.patched l x.place here); Assemble.patch x.place here : Assemble Unit) b log =
      ((.ok x, b'), log')) : b'.code.size = b.code.size := by
  induction xs generalizing b log with
  | nil =>
    cases h
    rfl
  | cons y xs ih =>
    rw [List.forM] at h
    obtain ⟨_, c, _, hy, h⟩ := Assemble.of_run_bind h
    obtain ⟨_, c', _, hnote, hy⟩ := Assemble.of_run_bind hy
    cases hnote
    rw [ih h, size_patch hy]

theorem size_bind {l : Label} {x : Unit} (h : Assemble.bind l b log = ((.ok x, b'), log')) : b'.code.size = b.code.size := by
  unfold Assemble.bind at h
  obtain ⟨_, c, _, hget, h⟩ := Assemble.of_run_bind h
  cases hget
  simp only [List.partition_eq_filter_filter] at h
  by_cases hsome : (b.labelOffset l).isSome = true
  · rw [if_pos hsome] at h
    cases h
  · rw [if_neg hsome] at h
    obtain ⟨_, c, _, hset, h⟩ := Assemble.of_run_bind h
    cases hset
    have hsize := size_patchAll h
    exact hsize

/-- A field holds the distance from its end, where that fits. -/
theorem fieldBytes_distance {place : Nat} {l : Label}
    (h : ∀ target, b.labelOffset l = some target → FieldFits place target) :
    Step.fieldBytes place (b.labelOffset l) = dispBytes (b.distance (place + 4) l) := by
  cases ht : b.labelOffset l with
  | none =>
    simp only [Buffer.distance, ht, Step.fieldBytes, dispBytes]
    rfl
  | some target =>
    have hfits := h target ht
    simp only [Buffer.distance, ht, Step.fieldBytes, dispBytes]
    rw [BitVec.signExtend, hfits]

theorem toList_emitRel32 {l : Label} {x : Unit} (h : Assemble.emitRel32 l b log = ((.ok x, b'), log')) :
    b'.code.toList = b.code.toList ++ dispBytes (b.distance (b.code.size + 4) l) := by
  unfold Assemble.emitRel32 at h
  obtain ⟨_, _, _, hget, h⟩ := Assemble.of_run_bind h
  cases hget
  obtain ⟨_, _, _, hwrite, h⟩ := Assemble.of_run_bind h
  cases hwrite
  obtain ⟨_, _, _, hget, h⟩ := Assemble.of_run_bind h
  cases hget
  have hwritten : (b.write (littleEndian 4 0)).code.toList = b.code.toList ++ littleEndian 4 0 := Array.toList_appendList
  cases ht : b.labelOffset l with
  | none =>
    rw [show (b.write (littleEndian 4 0)).labelOffset l = none from ht] at h
    cases h
    simp only [Buffer.distance, ht]
    exact hwritten
  | some target =>
    rw [show (b.write (littleEndian 4 0)).labelOffset l = some target from ht] at h
    replace h : Assemble.patch b.code.size target (b.write (littleEndian 4 0)) log = _ := h
    by_cases hfits : FieldFits b.code.size target
    · have hp : b.code.size + 4 ≤ (b.write (littleEndian 4 0)).code.size := by
        have hsize := congrArg List.length hwritten
        rw [List.length_append, length_littleEndian, Array.length_toList, Array.length_toList] at hsize
        exact hsize.ge
      have hlen : b.code.toList.length = b.code.size := Array.length_toList
      have hfield : Step.fieldBytes b.code.size (some target) = dispBytes (b.distance (b.code.size + 4) l) := by
        rw [← ht]
        refine fieldBytes_distance fun t h' => ?_
        cases ht.symm.trans h'
        exact hfits
      rw [patch_of_fits hfits] at h
      obtain rfl : _ = b' := congrArg (·.1.2) h
      rw [toList_overwrite l hp, hwritten, Step.patched, List.take_left' hlen, List.drop_of_length_le (by simp),
        List.append_nil, hfield]
    · rw [patch_of_not_fits hfits] at h
      cases h

theorem toList_emit_bytes {bs : List Byte} {x : Unit}
    (h : ((bs.map Piece.byte).forM Piece.emit) b log = ((.ok x, b'), log')) :
    b'.code.toList = b.code.toList ++ bs ∧ b'.labels = b.labels := by
  induction bs generalizing b log with
  | nil =>
    cases h
    simp
  | cons y bs ih =>
    rw [List.map_cons, List.forM] at h
    obtain ⟨_, c, _, hy, h⟩ := Assemble.of_run_bind h
    cases hy
    obtain ⟨hcode, hlabels⟩ := ih h
    have hwritten : (b.write [y]).code.toList = b.code.toList ++ [y] := Array.toList_appendList
    refine ⟨?_, hlabels⟩
    rw [hcode]
    refine (congrArg (· ++ bs) hwritten).trans ?_
    simp

/-- An instruction's bytes, and a reference at its end. -/
theorem toList_emit {bs : List Byte} {ls : List Label} (hls : ls.length ≤ 1) {x : Unit}
    (h : ((bs.map Piece.byte ++ ls.map Piece.rel32).forM Piece.emit) b log = ((.ok x, b'), log')) :
    b'.code.toList = b.code.toList ++ (bs ++ ls.flatMap fun l => dispBytes (b.distance b'.code.size l)) := by
  replace h : (forM (bs.map Piece.byte ++ ls.map Piece.rel32) Piece.emit : Assemble Unit) b log = _ := h
  rw [List.forM_append] at h
  obtain ⟨_, c, _, hbytes, h⟩ := Assemble.of_run_bind h
  obtain ⟨hcode, hlabels⟩ := toList_emit_bytes hbytes
  match ls, hls with
  | [], _ =>
    cases h
    simpa using hcode
  | [l], _ =>
    replace h : (Piece.emit (.rel32 l) >>= fun _ => pure ()) c _ = _ := h
    obtain ⟨_, c', _, href, h⟩ := Assemble.of_run_bind h
    cases h
    have hend := toList_emitRel32 href
    have hsize : b'.code.size = c.code.size + 4 := by
      have := congrArg List.length hend
      simpa [dispBytes] using this
    have hdist : c.distance (c.code.size + 4) l = b.distance b'.code.size l := by
      rw [hsize]
      simp only [Buffer.distance, Buffer.labelOffset, hlabels]
    rw [hend, hcode, hdist]
    simp

theorem Coded.exists_plain {cs : List Coded} {is : List Instr}
    (h : cs.map Coded.normal = (is.map Coded.plain).map Coded.normal) :
    ∃ js : List Instr, cs = js.map .plain ∧ js.map Instr.normal = is.map Instr.normal := by
  induction cs generalizing is with
  | nil =>
    cases is with
    | nil => exact ⟨[], rfl, rfl⟩
    | cons i is => simp at h
  | cons c cs ih =>
    cases is with
    | nil => simp at h
    | cons i is =>
      simp only [List.map_cons, List.cons.injEq] at h
      obtain ⟨js, rfl, hjs⟩ := ih h.2
      cases c with
      | plain j => exact ⟨j :: js, rfl, by simpa [hjs, Coded.normal] using h.1⟩
      | _ => cases h.1

theorem run_normal (is : List Instr) (m : Machine) :
    (is.map Instr.normal).foldlM (fun m i => i.exec m) m = is.foldlM (fun m i => i.exec m) m := by
  rw [List.foldlM_map]
  simp only [exec_normal]

theorem code_of_note {f : Buffer → Event} {x : Unit}
    (h : (do note (f (← get)) : Assemble Unit) b log = ((.ok x, b'), log')) : b = b' := by
  cases h
  rfl

/-- An accepted expression binds its label, or appends the pieces of its instruction. -/
theorem encode_eq_ok {e : Expr} {x : Unit} (h : encode e b log = ((.ok x, b'), log')) :
    (∃ l log₁, e = .label l ∧ Assemble.bind l b log = ((.ok (), b'), log₁)) ∨
      ∃ pieces log₁, e.isLabel = false ∧ (instruction e).run [] = (.ok (), pieces) ∧
        pieces.forM Piece.emit b log = ((.ok (), b'), log₁) := by
  unfold encode at h
  obtain ⟨_, _, _, hget, h⟩ := Assemble.of_run_bind h
  cases hget
  dsimp only at h
  split at h
  case h_1 =>
    obtain ⟨_, c, log₁, hrun, h⟩ := Assemble.of_run_bind h
    obtain rfl := code_of_note h
    exact .inl ⟨_, log₁, rfl, hrun⟩
  case h_2 hno =>
    have hlabel : e.isLabel = false := by
      cases e with
      | label l => exact (hno l rfl).elim
      | _ => rfl
    rcases hinst : ExceptT.run (instruction e) [] with ⟨result, pieces⟩
    simp only [hinst] at h
    obtain ⟨_, c, log₁, hrun, h⟩ := Assemble.of_run_bind h
    cases result with
    | error err => cases h
    | ok =>
      obtain rfl := code_of_note h
      exact .inr ⟨pieces, log₁, hlabel, rfl, hrun⟩

/-- What an accepted expression appends to a buffer. -/
theorem spells_encode {e : Expr} (he : e.UsesGpr) (h : encode e b log = ((.ok (), b'), log')) :
    ∃ is, intended (b.distance b'.code.size) e = some is ∧ Spells (b'.code.toList.drop b.code.size) is := by
  obtain ⟨l, _, rfl, hbind⟩ | ⟨pieces, _, -, hinst, hrun⟩ := encode_eq_ok h
  · refine ⟨[], rfl, ?_⟩
    rw [List.drop_of_length_le (by rw [Array.length_toList, size_bind hbind])]
    exact Spells.nil
  · obtain ⟨is, his, bs, ls, hpieces, hls, hspells⟩ := reads_instruction (b.distance b'.code.size) he hinst
    rw [List.nil_append] at hpieces
    subst hpieces
    refine ⟨is, his, ?_⟩
    rw [toList_emit hls hrun, List.drop_left' Array.length_toList]
    exact hspells

/-- What an accepted expression appends to a buffer reads, with no bytes left over, as what the expression means, with
operands of the size that it asks for apart from `fixedSize?`; and the instructions read do what those of the expression
do. -/
theorem decode_encode {e : Expr} (he : e.UsesGpr) (h : encode e b log = ((.ok (), b'), log')) :
    ∃ cs is, decode (b'.code.toList.drop b.code.size) = some cs ∧ intended (b.distance b'.code.size) e = some is ∧
      cs.map Coded.normal = is.map Coded.normal ∧ (∀ c ∈ is, c.operandSize = (fixedSize? e c).or (askedSize? e)) ∧
      ∀ is' : List Instr, is = is'.map .plain → ∃ js : List Instr, cs = js.map .plain ∧
        ∀ m, js.foldlM (fun m i => i.exec m) m = is'.foldlM (fun m i => i.exec m) m := by
  obtain ⟨is, his, hspells⟩ := spells_encode he h
  obtain ⟨cs, hcs, hnormal⟩ := hspells.decodes
  refine ⟨cs, is, hcs, his, hnormal, operandSize_intended his, ?_⟩
  rintro is' rfl
  obtain ⟨js, rfl, hjs⟩ := Coded.exists_plain hnormal
  refine ⟨js, rfl, fun m => ?_⟩
  rw [← run_normal js, hjs, run_normal]

/-- A byte of `spl`, to be stored at `r13 + 4 * r12`. -/
def storedByte : Expr :=
  .binary .assign .uint8 (.memAt .uint8 false ⟨some (gpr 13), some (gpr 12), .four, 0⟩) (.reg (.hard .uint8 rsp))

theorem decode_encode_storedByte : storedByte.UsesGpr ∧
    ∃ b log, encode storedByte {} #[] = ((.ok (), b), log) ∧ ∃ cs, decode b.code.toList = some cs ∧
      cs.map Coded.normal = [.plain (.mov 1 (.mem ⟨some (gpr 13), some (gpr 12), .four, 0⟩) (.reg rsp))] := by
  have huses : storedByte.UsesGpr := by
    refine ⟨?_, ?_⟩
    · exact (by decide : ∀ r ∈ [gpr 13, gpr 12], IsGpr r)
    · rintro h ⟨⟩
      decide
  obtain ⟨b, log, hrun⟩ : ∃ b log, encode storedByte {} #[] = ((.ok (), b), log) := ⟨_, _, rfl⟩
  obtain ⟨cs, is, hcs, his, hnormal, -⟩ := decode_encode huses hrun
  cases his
  exact ⟨huses, b, log, hrun, cs, hcs, hnormal⟩

/-- A register of one byte, to be cleared. -/
def clearedByte : Expr := .unary .zero .uint8 (.reg (.hard .uint8 rax))

/-- The operand of the instruction that is appended has four bytes, and not the one byte of the node. -/
theorem encode_clearedByte : clearedByte.UsesGpr ∧ askedSize? clearedByte = some 1 ∧
    ∃ b log, encode clearedByte {} #[] = ((.ok (), b), log) ∧ b.code.toList = [0x31, 0xC0] ∧
      ∃ c, decode b.code.toList = some [c] ∧ c.operandSize = some 4 := by
  have huses : clearedByte.UsesGpr := by
    rintro h ⟨⟩
    decide
  refine ⟨huses, rfl, _, _, rfl, rfl, .plain (.alu .xor 4 (.reg rax) (.reg rax)), ?_, rfl⟩
  cbv

end Buffers

end Amd64

end JitBackend
