import JitBackend.Proofs.Amd64.Acceptance
import JitBackend.Proofs.Amd64.Roundtrip

/-!
# Running the bytes

The machine reads the instruction at an offset of the code and does what it says (`fetch`). The bytes of encoded code run
as `exec` runs its expressions (`SitsAll.reaches`): a run that is at an expression is at its offset, and a run on its way to
a label is at the offset that the label is bound to. In a function that has been assembled, any part of its code is laid
out in this way (`assemble_sits`), and its bytes do what its expressions do (`runsAssembled_of_exec`).
-/

namespace JitBackend.Amd64

/-! ## The machine on bytes -/

/-- What an instruction does that ends at the offset `next`. Addresses of code, calls and returns lead out of the code. -/
def Coded.exec (next : Nat) (m : Machine) : Coded → Option (Nat × Machine)
  | plain i => (i.exec m).map (next, ·)
  | jump d => (next + d.toInt).toNat?.map (·, m)
  | jcc c d => m.flags.bind fun f => if f.holds c then (next + d.toInt).toNat?.map (·, m) else some (next, m)
  | leaCode _ _ | call _ | ret => none

/-- Reads the instruction at an offset and executes it. -/
def fetch (code : List Byte) (p : Nat × Machine) : Option (Nat × Machine) :=
  (decodeOne (code.drop p.1)).bind fun r => r.1.exec (code.length - r.2.length) p.2

/-- The machine gets from an offset to another one. -/
def Reaches (code : List Byte) : Nat × Machine → Nat × Machine → Prop :=
  Relation.ReflTransGen fun p q => fetch code p = some q

section Reaches

variable {code bs : List Byte} {c : Coded} {pc : Nat} {m m' : Machine}

theorem Coded.exec_normal (c : Coded) (next : Nat) (m : Machine) : c.normal.exec next m = c.exec next m := by
  cases c with
  | plain i => exact congrArg (Option.map (next, ·)) (Amd64.exec_normal i m)
  | _ => rfl

theorem fetch_codes (h : Codes bs c) (hat : bs <+: code.drop pc) : fetch code (pc, m) = c.exec (pc + bs.length) m := by
  obtain ⟨rest, hat⟩ := hat
  obtain ⟨c', hone, hc⟩ := h rest
  have hpos := h.length_pos
  have hlen : bs.length + rest.length = code.length - pc := by simpa using congrArg List.length hat
  have hnext : code.length - rest.length = pc + bs.length := by omega
  rw [fetch, ← hat, hone, Option.bind_some, hnext, ← c'.exec_normal, hc, c.exec_normal]

theorem Reaches.codes (h : Codes bs c) (hat : bs <+: code.drop pc) {q : Nat × Machine}
    (hc : c.exec (pc + bs.length) m = some q) : Reaches code (pc, m) q :=
  .single ((fetch_codes h hat).trans hc)

/-- A sequence of instructions without jumps. -/
theorem Reaches.instrs {is : List Instr} (h : Spells bs (is.map .plain)) (hat : bs <+: code.drop pc)
    (hm : is.foldlM (fun m i => i.exec m) m = some m') : Reaches code (pc, m) (pc + bs.length, m') := by
  induction is generalizing bs pc m with
  | nil =>
    cases h
    cases hm
    exact .refl
  | cons i is ih =>
    rw [List.map_cons] at h
    cases h with
    | @cons bs₁ bs₂ _ _ hi his =>
      obtain ⟨rest, hat⟩ := hat
      rw [List.append_assoc] at hat
      rw [List.foldlM_cons] at hm
      obtain ⟨m₁, hm₁, hm⟩ := Option.bind_eq_some_iff.1 hm
      have hhead : Reaches code (pc, m) (pc + bs₁.length, m₁) :=
        .codes hi ⟨_, hat⟩ (by rw [Coded.exec, hm₁, Option.map_some])
      have htail : bs₂ <+: code.drop (pc + bs₁.length) := ⟨rest, by rw [← List.drop_drop, ← hat, List.drop_left]⟩
      rw [List.length_append, ← Nat.add_assoc]
      exact hhead.trans (ih his htail hm)

end Reaches

/-! ## Expressions in a buffer -/

/-- The bytes from one offset to another are those of an expression, its references resolved. -/
def Sits (b : Buffer) (pc next : Nat) (e : Expr) : Prop :=
  ∃ bs cs, bs <+: b.code.toList.drop pc ∧ next = pc + bs.length ∧ intended (b.distance next) e = some cs ∧ Spells bs cs

/-- The bytes from one offset to another are those of the expressions, and the labels among them are bound there. -/
def SitsAll (b : Buffer) (pc : Nat) : List Expr → Nat → Prop
  | [], stop => pc = stop
  | e :: code, stop => ∃ next, Sits b pc next e ∧ (∀ l, e = .label l → b.labelOffset l = some pc) ∧ SitsAll b next code stop

section Sits

variable {b : Buffer} {pc next stop : Nat} {e : Expr} {code : List Expr} {m m' : Machine} {l : Label}

/-- The address of a label is not among the instructions that run. -/
theorem run_addressed {k : Kind} {x y : Expr} {r : HardReg} {is : List Instr} (hx : operand? x = some (.reg r))
    (hy : addressed y = some l) (his : denoteAssign k x y = some is) : is.foldlM (fun m i => i.exec m) m = none := by
  unfold addressed at hy
  split at hy
  · cases hy
    simp only [denoteAssign, hx] at his
    cases his
  · cases hy
    rename_i kz
    obtain ⟨n, hn⟩ : ∃ n, size? kz = some n := by
      simp only [denoteAssign, hx, Option.bind_eq_bind, Option.bind_some] at his
      exact (Option.bind_eq_some_iff.1 his).imp fun _ => And.left
    rw [denoteAssign_cast hx hn rfl rfl] at his
    cases his
    rw [if_neg (show Operand.reg r ≠ .label l by simp)]
    split <;> rfl
  · cases hy

/-- A node that has run means the instructions that it ran. -/
theorem intended_of_run {dist : Label → BitVec 32} {cs : List Coded} {is : List Instr} (h : intended dist e = some cs)
    (his : denote e = some is) (hm : is.foldlM (fun m i => i.exec m) m = some m') : cs = is.map .plain := by
  have hplain : intended dist e = (denote e).map (·.map .plain) → cs = is.map .plain := by
    intro heq
    rw [heq, his] at h
    exact (Option.some.inj h).symm
  cases e with
  | unary op k x =>
    cases op with
    | jump | jcc =>
      obtain ⟨dst, -, hno⟩ := Option.bind_eq_some_iff.1 his
      cases dst <;> cases hno
    | _ => exact hplain rfl
  | binary op k x y =>
    cases op with
    | assign =>
      cases haddr : addressed y with
      | none => exact hplain (by simp only [intended, haddr]; rfl)
      | some l =>
        simp only [intended, haddr] at h
        split at h
        · rename_i r hx
          rw [run_addressed hx haddr his] at hm
          cases hm
        · cases h
    | _ => exact hplain rfl
  | _ => cases his

theorem Spells.codes {bs : List Byte} {c : Coded} (h : Spells bs [c]) : Codes bs c := by
  cases h with
  | cons h hnil =>
    cases hnil
    rwa [List.append_nil]

/-- An expression that is executed goes on behind its bytes. -/
theorem Sits.step_at (h : Sits b pc next e) (hstep : step e (.at m) = .at m') :
    Reaches b.code.toList (pc, m) (next, m') := by
  obtain ⟨bs, cs, hat, rfl, hcs, hspells⟩ := h
  simp only [step] at hstep
  split at hstep
  · cases hstep
    cases hcs
    cases hspells
    exact .refl
  · cases hstep
  · cases hcs
    split at hstep
    · rename_i f hf
      split at hstep
      · cases hstep
      · rename_i hno
        cases hstep
        exact .codes hspells.codes hat (by rw [Coded.exec, hf, Option.bind_some, if_neg hno])
    · cases hstep
  · split at hstep
    · rename_i hm
      cases hstep
      obtain ⟨is, his, hm⟩ := Option.bind_eq_some_iff.1 hm
      obtain rfl := intended_of_run hcs his hm
      exact .instrs hspells hat hm
    · cases hstep

/-- A jump from an offset gets to the offset of its label. -/
theorem toNat?_distance {o : Nat} (hl : b.labelOffset l = some o) (ho : o < 2 ^ 31) (hnext : next < 2 ^ 31) :
    (next + (b.distance next l).toInt).toNat? = some o := by
  have hdist : (b.distance next l).toInt = (o : Int) - next := by
    rw [Buffer.distance, hl, BitVec.toInt_ofInt]
    exact Int.bmod_eq_of_le (by omega) (by omega)
  rw [hdist, show (next : Int) + (o - next) = o by omega]
  rfl

/-- An expression that jumps goes on at its label. -/
theorem Sits.step_seek {o : Nat} (h : Sits b pc next e) (hstep : step e (.at m) = .seek l m')
    (hl : b.labelOffset l = some o) (ho : o < 2 ^ 31) (hnext : next < 2 ^ 31) : Reaches b.code.toList (pc, m) (o, m') := by
  obtain ⟨bs, cs, hat, rfl, hcs, hspells⟩ := h
  have hgoto := toNat?_distance hl ho hnext
  simp only [step] at hstep
  split at hstep
  · cases hstep
  · cases hstep
    cases hcs
    exact .codes hspells.codes hat (by rw [Coded.exec, hgoto, Option.map_some])
  · cases hcs
    split at hstep
    · rename_i f hf
      split at hstep
      · rename_i hyes
        cases hstep
        exact .codes hspells.codes hat (by rw [Coded.exec, hf, Option.bind_some, if_pos hyes, hgoto, Option.map_some])
      · cases hstep
    · cases hstep
  · split at hstep <;> cases hstep

theorem SitsAll.le (h : SitsAll b pc code stop) : pc ≤ stop := by
  induction code generalizing pc with
  | nil => exact h.le
  | cons e code ih =>
    obtain ⟨next, ⟨bs, cs, -, rfl, -⟩, -, hrest⟩ := h
    have := ih hrest
    omega

theorem exec_fault (code : List Expr) : exec code .fault = .fault := by
  induction code with
  | nil => rfl
  | cons e code ih => exact ih

/-- The bytes of laid out code run as the code does: from the offset of the code if the run is at its start, and from the
offset of a label if the run is on its way there. -/
theorem SitsAll.reaches (h : SitsAll b pc code stop) (hstop : stop < 2 ^ 31) :
    (∀ m m', exec code (.at m) = .at m' → Reaches b.code.toList (pc, m) (stop, m')) ∧
      ∀ l m m', exec code (.seek l m) = .at m' →
        ∃ o ≤ stop, b.labelOffset l = some o ∧ Reaches b.code.toList (o, m) (stop, m') := by
  induction code generalizing pc with
  | nil =>
    obtain rfl : pc = stop := h
    refine ⟨?_, ?_⟩
    · rintro m m' ⟨⟩
      exact .refl
    · rintro l m m' ⟨⟩
  | cons e code ih =>
    have hpc := h.le
    obtain ⟨next, he, hlabel, hrest⟩ := h
    have hnext := hrest.le
    obtain ⟨ihAt, ihSeek⟩ := ih hrest
    refine ⟨fun m m' hexec => ?_, fun l m m' hexec => ?_⟩
    · rw [exec, List.foldl_cons, ← exec] at hexec
      rcases hstep : step e (.at m) with m₁ | ⟨l, m₁⟩ | _
      · rw [hstep] at hexec
        exact (he.step_at hstep).trans (ihAt m₁ m' hexec)
      · rw [hstep] at hexec
        obtain ⟨o, hle, ho, hreach⟩ := ihSeek l m₁ m' hexec
        exact (he.step_seek hstep ho (by omega) (by omega)).trans hreach
      · rw [hstep, exec_fault] at hexec
        cases hexec
    · rw [exec, List.foldl_cons, ← exec, step] at hexec
      split at hexec
      · rename_i hl
        have hbound := hlabel l hl
        have hhere : Reaches b.code.toList (pc, m) (next, m) := he.step_at (by rw [hl]; rfl)
        exact ⟨pc, hpc, hbound, hhere.trans (ihAt m m' hexec)⟩
      · exact ihSeek l m m' hexec

end Sits

/-! ## The layout of a buffer -/

/-- What a piece of an instruction asks of a buffer. -/
def Piece.step : Piece → JitBackend.Step
  | .byte x => .bytes [x]
  | .rel32 l => .ref l

/-- What encoding an expression asks of a buffer. -/
def stepsOf : Expr → List JitBackend.Step
  | .label l => [.bind l]
  | e => ((instruction e).run []).2.map Piece.step

/-- What encoding an item of a function with a frame of `n` bytes asks of a buffer. -/
def stepsOfItem (n : Nat) (i : Item) : List JitBackend.Step :=
  match i.instruction n with
  | .ok e => stepsOf e
  | .error _ => []

/-- How many bytes the items take. -/
def codeSize (n : Nat) (items : List Item) : Nat := Step.extent (items.flatMap (stepsOfItem n))

section Layout

variable {b b' : Buffer} {log log' : Log} {steps before after : List JitBackend.Step} {e : Expr} {u : Unit}

theorem forM_step (pieces : List Piece) : (pieces.map Piece.step).forM JitBackend.Step.run = pieces.forM Piece.emit := by
  induction pieces with
  | nil => rfl
  | cons p pieces ih =>
    have hp : p.step.run = p.emit := by cases p <;> rfl
    rw [List.map_cons, List.forM, List.forM, ih, hp]

theorem stepsOf_eq {pieces : List Piece} (hlabel : e.isLabel = false) (h : (instruction e).run [] = (.ok u, pieces)) :
    stepsOf e = pieces.map Piece.step := by
  cases e with
  | label l => cases hlabel
  | _ => exact congrArg (fun r => r.2.map Piece.step) h

/-- Encoding an expression takes its steps. -/
theorem run_stepsOf (h : encode e b log = ((.ok u, b'), log')) :
    ∃ log₁, (stepsOf e).forM JitBackend.Step.run b log = ((.ok (), b'), log₁) := by
  obtain ⟨l, log₁, rfl, hbind⟩ | ⟨pieces, log₁, hlabel, hinst, hrun⟩ := encode_eq_ok h
  · refine ⟨log₁, ?_⟩
    rw [stepsOf, List.forM, JitBackend.Step.run]
    exact Assemble.run_bind hbind
  · refine ⟨log₁, ?_⟩
    rw [stepsOf_eq hlabel hinst, forM_step]
    exact hrun

theorem size_step {s : JitBackend.Step} (h : s.run b log = ((.ok u, b'), log')) : b'.code.size = b.code.size + s.size := by
  have hwrite : ∀ bs : List Byte, (b.write bs).code.size = b.code.size + bs.length := fun bs => by
    rw [← Array.length_toList, Buffer.write, Array.toList_appendList, List.length_append, Array.length_toList]
  cases s with
  | bytes bs =>
    cases h
    exact hwrite bs
  | word n w =>
    cases h
    exact (hwrite _).trans (by rw [length_littleEndian, Step.size])
  | bind l => exact size_bind h
  | ref l => simpa [dispBytes, Step.size] using congrArg List.length (toList_emitRel32 h)

theorem size_steps (h : steps.forM JitBackend.Step.run b log = ((.ok u, b'), log')) :
    b'.code.size = b.code.size + Step.extent steps := by
  induction steps generalizing b log with
  | nil =>
    cases h
    rfl
  | cons s steps ih =>
    rw [List.forM] at h
    obtain ⟨_, c, _, hs, h⟩ := Assemble.of_run_bind h
    rw [ih h, size_step hs, Step.extent_cons, Nat.add_assoc]

/-- Encoding an item takes its steps. -/
theorem run_stepsOfItem {n : Nat} {i : Item} (h : encodeItem n i b log = ((.ok u, b'), log')) :
    ∃ log₁, (stepsOfItem n i).forM JitBackend.Step.run b log = ((.ok (), b'), log₁) := by
  unfold encodeItem at h
  cases hi : i.instruction n with
  | ok e =>
    rw [hi] at h
    obtain ⟨log₁, hrun⟩ := run_stepsOf h
    refine ⟨log₁, ?_⟩
    rw [stepsOfItem, hi]
    exact hrun
  | error op =>
    rw [hi] at h
    cases h

theorem size_encodeItems {n : Nat} {items : List Item} (h : items.forM (encodeItem n) b log = ((.ok u, b'), log')) :
    b'.code.size = b.code.size + codeSize n items := by
  induction items generalizing b log with
  | nil =>
    cases h
    rfl
  | cons i items ih =>
    rw [List.forM] at h
    obtain ⟨_, c, _, hi, h⟩ := Assemble.of_run_bind h
    obtain ⟨_, hrun⟩ := run_stepsOfItem hi
    rw [ih h, size_steps hrun, codeSize, codeSize, List.flatMap_cons, Step.extent_append, Nat.add_assoc]

/-- Encoding items makes a buffer that follows from their steps. -/
theorem follows_encodeItems {n : Nat} {items : List Item} (hb : Follows steps b)
    (h : items.forM (encodeItem n) b log = ((.ok u, b'), log')) (hsize : b'.code.size < 2 ^ 31) :
    Follows (steps ++ items.flatMap (stepsOfItem n)) b' := by
  induction items generalizing steps b log with
  | nil =>
    cases h
    simpa using hb
  | cons i items ih =>
    rw [List.forM] at h
    obtain ⟨_, c, _, hi, h⟩ := Assemble.of_run_bind h
    obtain ⟨_, hrun⟩ := run_stepsOfItem hi
    have hc : Follows (steps ++ stepsOfItem n i) c := by
      refine hb.run _ ?_ hrun
      have := size_encodeItems h
      rw [Step.extent_append, ← hb.size, ← size_steps hrun]
      omega
    rw [List.flatMap_cons, ← List.append_assoc]
    exact ih hc h

theorem image_bytes (target : Label → Option Nat) (place : Nat) (bs : List Byte) :
    Step.image target place ((bs.map Piece.byte).map Piece.step) = bs := by
  induction bs generalizing place with
  | nil => rfl
  | cons x bs ih =>
    show [x] ++ Step.image target (place + 1) _ = _
    rw [ih]
    rfl

/-- The bytes of an instruction, with a reference at its end. -/
theorem image_pieces {bs : List Byte} {ls : List Label} {place : Nat} (hls : ls.length ≤ 1)
    (hsteps : steps = (bs.map Piece.byte ++ ls.map Piece.rel32).map Piece.step)
    (hend : place + Step.extent steps < 2 ^ 31) (hbound : ∀ l target, b.labelOffset l = some target → target < 2 ^ 31) :
    Step.image b.labelOffset place steps =
      bs ++ ls.flatMap fun l => dispBytes (b.distance (place + Step.extent steps) l) := by
  have hbytes : Step.extent ((bs.map Piece.byte).map Piece.step) = bs.length :=
    Step.length_image.symm.trans (congrArg List.length (image_bytes b.labelOffset place bs))
  rw [List.map_append] at hsteps
  rw [hsteps, Step.extent_append, hbytes] at hend ⊢
  rw [Step.image_append, image_bytes, hbytes]
  match ls, hls with
  | [], _ => rfl
  | [l], _ =>
    replace hend : place + (bs.length + 4) < 2 ^ 31 := hend
    have hfield : Step.fieldBytes (place + bs.length) (b.labelOffset l) =
        dispBytes (b.distance (place + bs.length + 4) l) :=
      fieldBytes_distance fun target ht => fieldFits_of_lt (by omega) (hbound l target ht)
    rw [Nat.add_assoc place] at hfield
    simpa [Piece.step, Step.image, Step.size] using hfield

/-- The bytes of an expression between those of other steps. -/
theorem sits_of_follows (h : Follows (before ++ (stepsOf e ++ after)) b) (hsize : b.code.size < 2 ^ 31) (he : Encodes e) :
    Sits b (Step.extent before) (Step.extent before + Step.extent (stepsOf e)) e := by
  cases hlabel : e.isLabel with
  | true =>
    cases e with
    | label l => exact ⟨[], [], List.nil_prefix, rfl, rfl, .nil⟩
    | _ => cases hlabel
  | false =>
    obtain ⟨pieces, hinst⟩ := he.accepts.resolve_left (by simp [hlabel]) []
    obtain ⟨cs, hcs, bs, ls, hpieces, hls, hspells⟩ :=
      reads_instruction (b.distance (Step.extent before + Step.extent (stepsOf e))) he.gpr hinst
    have hend : Step.extent before + Step.extent (stepsOf e) < 2 ^ 31 := by
      rw [h.size, Step.extent_append, Step.extent_append] at hsize
      omega
    have hbound : ∀ l target, b.labelOffset l = some target → target < 2 ^ 31 := by
      intro l target ht
      have hle := Step.boundAt_le ((congrFun h.labels l).symm.trans ht)
      rw [← h.size] at hle
      omega
    have himage := image_pieces hls (hpieces ▸ stepsOf_eq hlabel hinst) hend hbound
    rw [← himage] at hspells
    refine ⟨_, cs, ?_, by rw [Step.length_image], hcs, hspells⟩
    rw [h.code, Step.image_append, Step.image_append, Nat.zero_add, List.drop_left' Step.length_image]
    exact List.prefix_append _ _

/-- So for a piece of code; its labels are bound where they stand, since no label is bound twice. -/
theorem sitsAll_of_follows {code : List Expr} (h : Follows (before ++ (code.flatMap stepsOf ++ after)) b)
    (hsize : b.code.size < 2 ^ 31) (hcode : ∀ e ∈ code, Encodes e) :
    SitsAll b (Step.extent before) code (Step.extent before + Step.extent (code.flatMap stepsOf)) := by
  induction code generalizing before with
  | nil => rfl
  | cons e code ih =>
    rw [List.flatMap_cons, List.append_assoc] at h
    obtain ⟨he, hcode⟩ := List.forall_mem_cons.1 hcode
    refine ⟨Step.extent before + Step.extent (stepsOf e), sits_of_follows h hsize he, ?_, ?_⟩
    · rintro l rfl
      have hnew : Step.boundAt l 0 before = none := Step.boundAt_eq_none.2 (Step.not_mem_of_nodup h.once)
      refine (congrFun h.labels l).trans ?_
      rw [Step.boundAt_append, hnew, Option.none_or, Nat.zero_add]
      exact if_pos rfl
    · rw [List.flatMap_cons, Step.extent_append, ← Nat.add_assoc, ← Step.extent_append]
      exact ih (by rwa [List.append_assoc]) hcode

end Layout

/-! ## Assembled functions -/

section Functions

variable {l : Lowered} {pre post : List Item} {code : List Expr} {bytes : List Byte} {table : List (Option Nat)}
  {log log' : Log}

theorem flatMap_stepsOfItem (n : Nat) (code : List Expr) :
    (code.map Item.instr).flatMap (stepsOfItem n) = code.flatMap stepsOf := by
  rw [List.flatMap_map]
  rfl

/-- In the bytes of an assembled function, a piece of its code is laid out between what stands before and after it. -/
theorem assemble_sits (hl : l.code = pre ++ (code.map .instr ++ post)) (hcode : ∀ e ∈ code, Encodes e)
    (h : assemble l log = (.ok (bytes, table), log')) (hsize : bytes.length < 2 ^ 31) :
    codeSize l.frame (pre ++ code.map .instr) ≤ bytes.length ∧ ∃ b : Buffer, b.code.toList = bytes ∧
      SitsAll b (codeSize l.frame pre) code (codeSize l.frame (pre ++ code.map .instr)) := by
  rw [assemble_eq] at h
  split at h
  · cases h
  · rename_i b log₁ hrun
    have hbytes : b.code.toList = bytes := by
      unfold Buffer.finish at h
      split at h
      · cases h
        rfl
      · cases h
    have hsmall : b.code.size < 2 ^ 31 := by rwa [← Array.length_toList, hbytes]
    have hb := follows_encodeItems (Follows.empty l.labels.size) hrun hsmall
    rw [List.nil_append, hl, List.flatMap_append, List.flatMap_append, flatMap_stepsOfItem] at hb
    rw [codeSize, codeSize, List.flatMap_append, flatMap_stepsOfItem, Step.extent_append]
    refine ⟨?_, b, hbytes, sitsAll_of_follows hb hsmall hcode⟩
    rw [← hbytes, Array.length_toList, hb.size, Step.extent_append, Step.extent_append]
    omega

/-- The machine runs the bytes of the code in every function that it is assembled in, from their start to their end. -/
def RunsAssembled (code : List Expr) (m m' : Machine) : Prop :=
  ∀ ⦃l : Lowered⦄ ⦃pre post : List Item⦄ ⦃bytes : List Byte⦄ ⦃table : List (Option Nat)⦄ ⦃log log' : Log⦄,
    l.code = pre ++ (code.map .instr ++ post) → assemble l log = (.ok (bytes, table), log') → bytes.length < 2 ^ 31 →
    Reaches bytes (codeSize l.frame pre, m) (codeSize l.frame (pre ++ code.map .instr), m')

theorem runsAssembled_of_exec {m m' : Machine} (hcode : ∀ e ∈ code, Encodes e) (h : exec code (.at m) = .at m') :
    RunsAssembled code m m' := by
  intro l pre post bytes table log log' hl ha hsize
  obtain ⟨hle, b, rfl, hsits⟩ := assemble_sits hl hcode ha hsize
  exact (hsits.reaches (by omega)).1 m m' h

end Functions

end JitBackend.Amd64
