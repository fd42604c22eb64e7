import Mathlib.Tactic
import JitBackend.Buffer

/-!
# Resolution of labels

What a buffer holds is determined by the steps that made it. `image` is the code of a list of steps when the offsets of
the labels are known, fields of unknown labels being zero. After any steps the code of the buffer is their image under
the offsets bound so far (`Follows`): binding a label turns one image into the next by filling in exactly the fields
that wait for the label (`patchAll_image`).
-/

namespace JitBackend

/-! ## Little-endian numbers -/

/-- The number that bytes stand for, the lowest one first. -/
def leNat : List Byte → Nat
  | [] => 0
  | b :: bs => b.toNat + 256 * leNat bs

@[simp] theorem length_littleEndian (n : Nat) (w : BitVec 64) : (littleEndian n w).length = n := by
  simp [littleEndian]

theorem littleEndian_succ (n : Nat) (w : BitVec 64) :
    littleEndian (n + 1) w = w.setWidth 8 :: littleEndian n (w >>> 8) := by
  simp only [littleEndian, List.range_succ_eq_map, List.map_cons, List.map_map]
  congr 1
  apply List.map_congr_left
  intro i _
  apply BitVec.eq_of_getLsbD_eq
  intro j _
  simp only [Function.comp_apply, BitVec.getLsbD_extractLsb', BitVec.getLsbD_ushiftRight]
  congr 2
  omega

theorem leNat_littleEndian (n : Nat) (w : BitVec 64) : leNat (littleEndian n w) = w.toNat % 256 ^ n := by
  induction n generalizing w with
  | zero => simp [littleEndian, leNat, Nat.mod_one]
  | succ n ih =>
    have hhead : (w.setWidth 8).toNat = w.toNat % 256 := BitVec.toNat_setWidth 8 w
    have htail : (w >>> 8).toNat = w.toNat / 256 := by rw [BitVec.toNat_ushiftRight, Nat.shiftRight_eq_div_pow]
    rw [littleEndian_succ, leNat, ih, hhead, htail, Nat.pow_succ', Nat.mod_mul]

/-- The four-byte number at an offset. -/
def fieldAt (code : List Byte) (place : Nat) : BitVec 32 := .ofNat 32 (leNat ((code.drop place).take 4))

/-! ## Steps -/

/-- What is asked of a buffer. -/
inductive Step
  | bytes (bs : List Byte) | word (n : Nat) (w : BitVec 64) | bind (l : Label) | ref (l : Label)
  deriving DecidableEq

namespace Step

def run : Step → Assemble Unit
  | bytes bs => Assemble.emit bs
  | word n w => Assemble.emit (littleEndian n w)
  | bind l => Assemble.bind l
  | ref l => Assemble.emitRel32 l

/-- How many bytes a step appends. -/
def size : Step → Nat
  | bytes bs => bs.length
  | word n _ => n
  | bind _ => 0
  | ref _ => 4

/-- What the finished code and the table of labels show of a step at an offset. -/
def Shown (code : List Byte) (table : List (Option Nat)) (place : Nat) : Step → Prop
  | bytes bs => (code.drop place).take bs.length = bs
  | word n w => (code.drop place).take n = littleEndian n w
  | bind l => table[l.index]?.join = some place
  | ref l => ∃ o : Nat, table[l.index]?.join = some o ∧ (fieldAt code place).toInt + (place + 4 : Nat) = o

def extent (steps : List Step) : Nat := (steps.map Step.size).sum

@[simp] theorem extent_nil : extent [] = 0 := rfl

@[simp] theorem extent_cons (s : Step) (steps : List Step) : extent (s :: steps) = s.size + extent steps := by
  simp [extent]

@[simp] theorem extent_append (xs ys : List Step) : extent (xs ++ ys) = extent xs + extent ys := by
  simp [extent]

/-- The labels referred to, in order. -/
def references (steps : List Step) : List Label :=
  steps.filterMap fun
    | .ref l => some l
    | _ => none

/-- The labels bound, in order. -/
def bindings (steps : List Step) : List Label :=
  steps.filterMap fun
    | .bind l => some l
    | _ => none

theorem mem_bindings {l : Label} {steps : List Step} : l ∈ bindings steps ↔ .bind l ∈ steps := by
  simp only [bindings, List.mem_filterMap]
  constructor
  · rintro ⟨s, hs, h⟩
    cases s <;> cases h
    exact hs
  · intro h
    exact ⟨_, h, rfl⟩

theorem bindings_append (xs ys : List Step) : bindings (xs ++ ys) = bindings xs ++ bindings ys := List.filterMap_append

/-- Where no label is bound twice, a label is not bound before its own step. -/
theorem not_mem_of_nodup {l : Label} {before after : List Step} (h : (bindings (before ++ .bind l :: after)).Nodup) :
    .bind l ∉ before := by
  intro hmem
  rw [bindings_append] at h
  exact (List.nodup_append.1 h).2.2 l (mem_bindings.2 hmem) l (mem_bindings.2 List.mem_cons_self) rfl

/-- The fields of the references, from an offset on. -/
@[grind =] def fields (place : Nat) : List Step → List Fixup
  | [] => []
  | .ref l :: steps => ⟨place, l⟩ :: fields (place + 4) steps
  | s :: steps => fields (place + s.size) steps

/-- Where the steps bind a label first, from an offset on. -/
@[grind =] def boundAt (l : Label) (place : Nat) : List Step → Option Nat
  | [] => none
  | s :: steps => if s = .bind l then some place else boundAt l (place + s.size) steps

/-- The bytes of a field at an offset that refers to a place, or to none yet. -/
def fieldBytes (place : Nat) : Option Nat → List Byte
  | some target => littleEndian 4 (.ofInt 64 (target - (place + 4 : Nat)))
  | none => littleEndian 4 0

/-- The code of the steps, from an offset on, under given offsets of labels. -/
@[grind =] def image (target : Label → Option Nat) (place : Nat) : List Step → List Byte
  | [] => []
  | .bytes bs :: steps => bs ++ image target (place + bs.length) steps
  | .word n w :: steps => littleEndian n w ++ image target (place + n) steps
  | .bind _ :: steps => image target place steps
  | .ref l :: steps => fieldBytes place (target l) ++ image target (place + 4) steps

@[simp] theorem length_fieldBytes (place : Nat) (o : Option Nat) : (fieldBytes place o).length = 4 := by
  cases o <;> simp [fieldBytes]

section Histories

variable {target : Label → Option Nat} {l : Label} {place : Nat} {steps xs ys : List Step}

theorem length_image : (image target place steps).length = extent steps := by
  induction steps generalizing place with
  | nil => rfl
  | cons s steps ih => cases s <;> simp [image, ih, Step.size]

theorem image_append : image target place (xs ++ ys) = image target place xs ++ image target (place + extent xs) ys := by
  induction xs generalizing place with
  | nil => simp [image]
  | cons s xs ih => cases s <;> simp [image, ih, Step.size, Nat.add_assoc]

theorem fields_append : fields place (xs ++ ys) = fields place xs ++ fields (place + extent xs) ys := by
  induction xs generalizing place with
  | nil => simp [fields]
  | cons s xs ih => cases s <;> simp [fields, ih, Step.size, Nat.add_assoc]

theorem map_label_fields (place : Nat) (steps : List Step) : (fields place steps).map Fixup.label = references steps := by
  induction steps generalizing place with
  | nil => rfl
  | cons s steps ih => cases s <;> simp [fields, references, ih]

/-- Every field ends within the steps. -/
theorem place_le_of_mem_fields {x : Fixup} (h : x ∈ fields place steps) : x.place + 4 ≤ place + extent steps := by
  induction steps generalizing place with
  | nil => simp [fields] at h
  | cons s steps ih =>
    cases s with
    | ref l =>
      rcases List.mem_cons.1 h with rfl | h
      · simp only [extent_cons, Step.size]
        omega
      · have := ih h
        simp only [extent_cons, Step.size]
        omega
    | bytes | word | bind =>
      have := ih h
      simp only [extent_cons]
      omega

theorem boundAt_append : boundAt l place (xs ++ ys) = (boundAt l place xs).or (boundAt l (place + extent xs) ys) := by
  induction xs generalizing place with
  | nil => simp [boundAt]
  | cons s xs ih =>
    rw [List.cons_append, boundAt, boundAt]
    split
    · rfl
    · rw [ih, extent_cons, Nat.add_assoc]

theorem boundAt_eq_none : boundAt l place steps = none ↔ .bind l ∉ steps := by
  induction steps generalizing place with
  | nil => simp [boundAt]
  | cons s steps ih =>
    rw [boundAt, List.mem_cons, not_or]
    split
    · rename_i h
      simp [h]
    · rename_i h
      rw [ih]
      exact ⟨fun h' => ⟨fun h'' => h h''.symm, h'⟩, fun h' => h'.2⟩

theorem boundAt_le {o : Nat} (h : boundAt l place steps = some o) : o ≤ place + extent steps := by
  induction steps generalizing place with
  | nil => simp [boundAt] at h
  | cons s steps ih =>
    rw [boundAt] at h
    split at h
    · cases h
      omega
    · have := ih h
      rw [extent_cons]
      omega

/-- The code with a field filled in. -/
def patched (here : Nat) (code : List Byte) (x : Fixup) : List Byte :=
  code.take x.place ++ fieldBytes x.place (some here) ++ code.drop (x.place + 4)

theorem length_patched {here : Nat} {code : List Byte} {x : Fixup} (h : x.place + 4 ≤ code.length) :
    (patched here code x).length = code.length := by
  simp only [patched, List.length_append, List.length_take, List.length_drop, length_fieldBytes]
  omega

/-- Filling in the fields that wait for a label gives the image under its offset. -/
theorem patchAll_image (here place : Nat) (steps : List Step) (hl : target l = none) :
    ∀ pre : List Byte, pre.length = place →
    ((fields place steps).filter fun x => x.label = l).foldl (patched here) (pre ++ image target place steps) =
      pre ++ image (Function.update target l (some here)) place steps := by
  induction steps generalizing place with
  | nil => intro pre _; rfl
  | cons s steps ih =>
    intro pre hpre
    -- What a step has appended counts as part of what stands before the rest.
    have past : ∀ bs : List Byte, bs.length = s.size →
        ((fields (place + s.size) steps).filter fun x => x.label = l).foldl (patched here)
            (pre ++ (bs ++ image target (place + s.size) steps)) =
          pre ++ (bs ++ image (Function.update target l (some here)) (place + s.size) steps) := by
      intro bs hbs
      have := ih (place + s.size) (pre ++ bs) (by rw [List.length_append, hpre, hbs])
      simpa only [List.append_assoc] using this
    cases s with
    | bytes bs => exact past bs rfl
    | word n w => exact past _ (length_littleEndian n w)
    | bind l' => exact past [] rfl
    | ref l' =>
      by_cases h : l' = l
      · subst h
        rw [fields, List.filter_cons_of_pos (by simp), List.foldl_cons, image, image, hl, Function.update_self]
        have hfill : patched here (pre ++ (fieldBytes place none ++ image target (place + 4) steps)) ⟨place, l'⟩ =
            pre ++ (fieldBytes place (some here) ++ image target (place + 4) steps) := by
          simp [patched, ← hpre, List.drop_append]
        rw [hfill]
        exact past _ (length_fieldBytes place _)
      · rw [fields, List.filter_cons_of_neg (by simp [h]), image, image, Function.update_of_ne h]
        exact past _ (length_fieldBytes place _)

end Histories

end Step

/-! ## What a step does to a buffer -/

open Step

section Buffers

variable {b : Buffer} {l : Label} {steps : List Step}

/-- What follows a computation that succeeds goes on from what it leaves. -/
theorem Assemble.run_bind {α β : Type} {act : Assemble α} {k : α → Assemble β} {a : α} {b b' : Buffer} {log log' : Log}
    (h : act b log = ((.ok a, b'), log')) : (act >>= k) b log = k a b' log' := by
  simp only [Bind.bind, ExceptT.bind, ExceptT.mk, StateT.bind, h, ExceptT.bindCont]

/-- A sequence succeeds if both of its parts do. -/
theorem Assemble.of_run_bind {α β : Type} {act : Assemble α} {k : α → Assemble β} {x : β} {b b' : Buffer} {log log' : Log}
    (h : (act >>= k) b log = ((.ok x, b'), log')) :
    ∃ a c logc, act b log = ((.ok a, c), logc) ∧ k a c logc = ((.ok x, b'), log') := by
  rcases hact : act b log with ⟨⟨r, c⟩, logc⟩
  cases r with
  | ok a => exact ⟨a, c, logc, rfl, (Assemble.run_bind hact).symm.trans h⟩
  | error e =>
    simp only [Bind.bind, ExceptT.bind, ExceptT.mk, StateT.bind, hact, ExceptT.bindCont] at h
    cases h

/-- Overwriting replaces bytes by as many others. -/
theorem toList_foldl_set (bs : List Byte) : ∀ (code : Array Byte) (place k : Nat), place + k + bs.length ≤ code.size →
    ((bs.zipIdx k).foldl (fun code (x : Byte × Nat) => code.setIfInBounds (place + x.2) x.1) code).toList =
      code.toList.take (place + k) ++ bs ++ code.toList.drop (place + k + bs.length) := by
  induction bs with
  | nil => intro code place k _; simp
  | cons x bs ih =>
    intro code place k h
    rw [List.length_cons] at h
    rw [List.zipIdx_cons, List.foldl_cons, ih _ place (k + 1) (by rw [Array.size_setIfInBounds]; omega)]
    have hlt : place + k < code.toList.length := by rw [Array.length_toList]; omega
    have hset : code.toList.set (place + k) x = code.toList.take (place + k) ++ x :: code.toList.drop (place + k + 1) := by
      rw [List.set_eq_take_append_cons_drop, if_pos hlt]
    have hlen : (code.toList.take (place + k)).length = place + k := by rw [List.length_take]; omega
    have htake : (code.toList.set (place + k) x).take (place + (k + 1)) = code.toList.take (place + k) ++ [x] := by
      rw [hset, List.take_append, hlen, List.take_of_length_le (by omega)]
      simp [show place + (k + 1) - (place + k) = 1 by omega]
    have hdrop : (code.toList.set (place + k) x).drop (place + (k + 1) + bs.length) =
        code.toList.drop (place + k + (bs.length + 1)) := by
      rw [List.drop_set_of_lt (by omega)]
      congr 1
      omega
    rw [Array.toList_setIfInBounds, htake, hdrop, List.length_cons]
    simp

/-! Overwriting is opened here only, for bytes that are a variable: those of a field evaluate, and slowly. -/

section Overwriting

variable (b : Buffer) (place : Nat) (bs : List Byte)

/-- Only the bytes change. -/
theorem eq_overwrite : { b with code := (b.overwrite place bs).code } = b.overwrite place bs := rfl

@[simp] theorem labels_overwrite : (b.overwrite place bs).labels = b.labels := rfl

@[simp] theorem fixups_overwrite : (b.overwrite place bs).fixups = b.fixups := rfl

@[simp] theorem size_overwrite : (b.overwrite place bs).code.size = b.code.size := by
  unfold Buffer.overwrite
  generalize b.code = code, bs.zipIdx = xs
  induction xs generalizing code with
  | nil => rfl
  | cons x xs ih => exact (ih _).trans Array.size_setIfInBounds

theorem toList_code_overwrite (h : place + bs.length ≤ b.code.size) :
    (b.overwrite place bs).code.toList = b.code.toList.take place ++ bs ++ b.code.toList.drop (place + bs.length) :=
  toList_foldl_set bs b.code place 0 h

end Overwriting

/-- The distance from the end of a field to an offset fits the field. -/
def FieldFits (place here : Nat) : Prop :=
  (BitVec.ofInt 32 (here - (place + 4 : Nat))).toInt = (here : Int) - (place + 4 : Nat)

theorem fieldFits_of_lt {place here : Nat} (hp : place + 4 < 2 ^ 31) (hh : here < 2 ^ 31) : FieldFits place here := by
  rw [FieldFits, BitVec.toInt_ofInt]
  exact Int.bmod_eq_of_le (by omega) (by omega)

theorem patch_of_fits {place here : Nat} (h : FieldFits place here) (log : Log) :
    Assemble.patch place here b log = ((.ok (), b.overwrite place (fieldBytes place (some here))), log) := by
  unfold Assemble.patch
  unfold FieldFits at h
  push_cast at h
  rw [if_neg (by simpa using h)]
  rfl

theorem patch_of_not_fits {place here : Nat} (h : ¬FieldFits place here) (log : Log) : Assemble.patch place here b log =
    ((.error (.fieldOverflow .jumpDisplacement (here - (place + 4 : Nat))), b), log) := by
  unfold Assemble.patch
  unfold FieldFits at h
  push_cast at h
  rw [if_pos (by simpa using h)]
  rfl

theorem toList_overwrite (l : Label) {place here : Nat} (hp : place + 4 ≤ b.code.size) :
    (b.overwrite place (fieldBytes place (some here))).code.toList = patched here b.code.toList ⟨place, l⟩ := by
  rw [toList_code_overwrite b place _ (by simpa using hp), length_fieldBytes, patched]

/-- A field within the buffer is filled in, if the buffer is small enough for its distance to fit. -/
theorem patch_eq (l : Label) (place here : Nat) (hp : place + 4 ≤ b.code.size) (hh : here ≤ b.code.size)
    (hb : b.code.size < 2 ^ 31) (log : Log) : ∃ code, Assemble.patch place here b log = ((.ok (), { b with code }), log) ∧
      code.toList = patched here b.code.toList ⟨place, l⟩ := by
  have hfits : FieldFits place here := fieldFits_of_lt (by omega) (by omega)
  refine ⟨(b.overwrite place (fieldBytes place (some here))).code, ?_, toList_overwrite l hp⟩
  rw [eq_overwrite]
  exact patch_of_fits hfits log

/-- So are several fields of one label, one after the other. -/
theorem patchAll_eq (l : Label) (here : Nat) : ∀ {xs : List Fixup} {b : Buffer} (log : Log),
    (∀ x ∈ xs, x.place + 4 ≤ b.code.size) →
    here ≤ b.code.size → b.code.size < 2 ^ 31 → ∃ code log',
      (xs.forM fun x => do note (.patched l x.place here); Assemble.patch x.place here : Assemble Unit) b log =
        ((.ok (), { b with code }), log') ∧ code.toList = xs.foldl (patched here) b.code.toList
  | [], b, log, _, _, _ => ⟨b.code, log, rfl, rfl⟩
  | x :: xs, b, log, hxs, hh, hb => by
    obtain ⟨hx, hxs⟩ := List.forall_mem_cons.1 hxs
    obtain ⟨code, hpatch, hcode⟩ := patch_eq x.label x.place here hx hh hb (log.push (.patched l x.place here))
    have hsize : code.size = b.code.size := by
      rw [← Array.length_toList, hcode, length_patched (by simpa using hx), Array.length_toList]
    obtain ⟨code', log', hrest, hcode'⟩ := patchAll_eq l here (b := { b with code }) (log.push (.patched l x.place here))
      (by simpa only [hsize] using hxs) (by simpa only [hsize] using hh) (by simpa only [hsize] using hb)
    refine ⟨code', log', ?_, by rw [hcode', hcode, List.foldl_cons]⟩
    rw [List.forM]
    refine (Assemble.run_bind (a := ()) ?_).trans hrest
    exact (Assemble.run_bind rfl).trans hpatch

theorem labelOffset_bound {here : Nat} {code : Array Byte} {fixups : List Fixup} (l' : Label) :
    Buffer.labelOffset ⟨code, b.bound l here, fixups⟩ l' = Function.update b.labelOffset l (some here) l' := by
  have hlen : l.index < (b.labels ++ List.replicate (l.index + 1 - b.labels.length) none).length := by
    rw [List.length_append, List.length_replicate]
    omega
  by_cases h : l' = l
  · subst h
    rw [Function.update_self]
    simp [Buffer.labelOffset, Buffer.bound, List.getElem?_set_self hlen]
  · have hne : l.index ≠ l'.index := fun hi => h (by cases l; cases l'; simp_all)
    rw [Function.update_of_ne h]
    simp only [Buffer.labelOffset, Buffer.bound, List.getElem?_set_ne hne]
    rcases Nat.lt_or_ge l'.index b.labels.length with hlt | hge
    · rw [List.getElem?_append_left hlt]
    · rw [List.getElem?_append_right hge, List.getElem?_eq_none hge, List.getElem?_replicate]
      split <;> rfl

/-- The buffer is what the steps make of an empty one. -/
structure Follows (steps : List Step) (b : Buffer) : Prop where
  labels : b.labelOffset = fun l => boundAt l 0 steps
  code : b.code.toList = image b.labelOffset 0 steps
  fixups : b.fixups = (fields 0 steps).filter fun x => .bind x.label ∉ steps
  once : (bindings steps).Nodup

namespace Follows

theorem empty (n : Nat) : Follows [] (.withLabels n) where
  labels := by
    funext l
    simp only [Buffer.labelOffset, Buffer.withLabels, List.getElem?_replicate, boundAt]
    split <;> rfl
  code := rfl
  fixups := rfl
  once := List.nodup_nil

theorem size (h : Follows steps b) : b.code.size = extent steps := by
  rw [← Array.length_toList, h.code, length_image]

theorem labelOffset_eq_none (h : Follows steps b) : b.labelOffset l = none ↔ .bind l ∉ steps := by
  rw [h.labels, boundAt_eq_none]

/-- Appending bytes for a step that concerns no label. -/
theorem write {s : Step} {bs : List Byte} (h : Follows steps b) (hbind : ∀ l, s ≠ .bind l)
    (himage : ∀ target place, image target place [s] = bs) (hfields : ∀ place, fields place [s] = []) :
    Follows (steps ++ [s]) (b.write bs) where
  labels := by
    funext l
    have hnone : boundAt l (0 + extent steps) [s] = none := boundAt_eq_none.2 (by simpa using (hbind l).symm)
    rw [boundAt_append, hnone, Option.or_none]
    exact congrFun h.labels l
  code := by
    rw [image_append, himage]
    exact Array.toList_appendList.trans (congrArg (· ++ bs) h.code)
  fixups := by
    rw [fields_append, hfields, List.append_nil]
    refine h.fixups.trans (List.filter_congr fun x _ => ?_)
    simp [(hbind x.label).symm]
  once := by
    have hnone : bindings [s] = [] := by cases s <;> first | rfl | exact absurd rfl (hbind _)
    rw [bindings_append, hnone, List.append_nil]
    exact h.once

/-- A label that is bound already cannot be bound again. -/
theorem bind_again (h : Follows steps b) (hl : .bind l ∈ steps) (log : Log) :
    Assemble.bind l b log = ((.error (.labelRedefined l), b), log) := by
  have hsome : (b.labelOffset l).isSome = true := by
    rw [Option.isSome_iff_ne_none, ne_eq, h.labelOffset_eq_none]
    exact not_not_intro hl
  unfold Assemble.bind
  refine (Assemble.run_bind rfl).trans ?_
  rw [if_pos hsome]
  rfl

/-- Binding a label fills in the fields that wait for it. -/
theorem bind (h : Follows steps b) (hl : .bind l ∉ steps) (hsize : extent steps < 2 ^ 31) (log : Log) :
    ∃ b' log', Assemble.bind l b log = ((.ok (), b'), log') ∧ Follows (steps ++ [.bind l]) b' := by
  have hnone := h.labelOffset_eq_none.2 hl
  have hready : (b.fixups.filter fun x => x.label = l) = (fields 0 steps).filter fun x => x.label = l := by
    rw [h.fixups, List.filter_filter]
    refine List.filter_congr fun x _ => ?_
    by_cases hx : x.label = l
    · simp [hx, hl]
    · simp [hx]
  have hplaces : ∀ x ∈ b.fixups.filter fun x => x.label = l, x.place + 4 ≤ b.code.size := by
    intro x hx
    rw [hready] at hx
    have := place_le_of_mem_fields (List.mem_filter.1 hx).1
    rw [h.size]
    omega
  obtain ⟨code, log', hrun, hcode⟩ := patchAll_eq l b.code.size
    (b := ⟨b.code, b.bound l b.code.size, b.fixups.filter fun x => !decide (x.label = l)⟩) log hplaces le_rfl
    (by rw [h.size]; exact hsize)
  refine ⟨⟨code, b.bound l b.code.size, b.fixups.filter fun x => !decide (x.label = l)⟩, log', ?_, ?_, ?_, ?_, ?_⟩
  · unfold Assemble.bind
    simp only [List.partition_eq_filter_filter]
    refine (Assemble.run_bind rfl).trans ?_
    rw [if_neg (by simp [hnone])]
    exact (Assemble.run_bind rfl).trans hrun
  · funext l'
    rw [labelOffset_bound, boundAt_append, ← congrFun h.labels l']
    by_cases hl' : l' = l
    · subst hl'
      simp [hnone, boundAt, h.size]
    · simp [Function.update_of_ne hl', boundAt, Ne.symm hl']
  · have htarget : Buffer.labelOffset ⟨code, b.bound l b.code.size, b.fixups.filter fun x => !decide (x.label = l)⟩ =
        Function.update b.labelOffset l (some b.code.size) := funext fun l' => labelOffset_bound l'
    rw [hcode, hready, htarget, image_append, image, image, List.append_nil]
    have hpatched := patchAll_image b.code.size 0 steps hnone [] rfl
    rwa [List.nil_append, List.nil_append, ← h.code] at hpatched
  · rw [fields_append]
    show b.fixups.filter _ = _
    rw [h.fixups, List.filter_filter]
    simp only [fields, List.append_nil]
    refine List.filter_congr fun x _ => ?_
    by_cases hx : x.label = l <;> simp [hx]
  · rw [bindings_append]
    refine h.once.append (List.nodup_singleton l) ?_
    rintro l' hmem hl'
    obtain rfl := List.mem_singleton.1 hl'
    exact hl (mem_bindings.1 hmem)

/-- A reference is filled in at once if its label is bound, and waits otherwise. -/
theorem ref (h : Follows steps b) (hsize : extent steps + 4 < 2 ^ 31) (log : Log) :
    ∃ b', Assemble.emitRel32 l b log = ((.ok (), b'), log) ∧ Follows (steps ++ [.ref l]) b' := by
  have hlabels : b.labelOffset = fun l' => boundAt l' 0 (steps ++ [.ref l]) := by
    funext l'
    rw [boundAt_append, ← congrFun h.labels l']
    simp [boundAt]
  have hwritten : (b.write (littleEndian 4 0)).code.toList = b.code.toList ++ littleEndian 4 0 := Array.toList_appendList
  have hsize' : (b.write (littleEndian 4 0)).code.size = b.code.size + 4 := by
    rw [← Array.length_toList, hwritten]
    simp
  have himage : image b.labelOffset 0 (steps ++ [.ref l]) = b.code.toList ++ fieldBytes b.code.size (b.labelOffset l) := by
    rw [image_append, h.code, h.size]
    simp [image]
  have honce : (bindings (steps ++ [.ref l])).Nodup := by
    rw [bindings_append]
    exact (List.append_nil _).symm ▸ h.once
  unfold Assemble.emitRel32
  cases ht : b.labelOffset l with
  | none =>
    refine ⟨{ b.write (littleEndian 4 0) with fixups := b.fixups ++ [⟨b.code.size, l⟩] }, ?_, hlabels, ?_, ?_, honce⟩
    · refine (Assemble.run_bind rfl).trans ((Assemble.run_bind rfl).trans ((Assemble.run_bind rfl).trans ?_))
      rw [show (b.write (littleEndian 4 0)).labelOffset l = none from ht]
      rfl
    · refine hwritten.trans ?_
      rw [ht] at himage
      exact himage.symm
    · rw [fields_append]
      show b.fixups ++ _ = _
      rw [h.fixups, List.filter_append, h.size]
      have hl := h.labelOffset_eq_none.1 ht
      simp [fields, hl]
  | some target =>
    obtain ⟨code, hpatch, hcode⟩ := patch_eq (b := b.write (littleEndian 4 0)) l b.code.size target (by omega)
      (by have := boundAt_le ((congrFun h.labels l).symm.trans ht); rw [hsize', h.size]; omega)
      (by rw [hsize', h.size]; exact hsize) log
    refine ⟨{ b with code }, ?_, hlabels, ?_, ?_, honce⟩
    · refine (Assemble.run_bind rfl).trans ((Assemble.run_bind rfl).trans ((Assemble.run_bind rfl).trans ?_))
      rw [show (b.write (littleEndian 4 0)).labelOffset l = some target from ht]
      exact hpatch
    · rw [hcode, hwritten]
      rw [ht] at himage
      refine Eq.trans ?_ himage.symm
      have hlen : b.code.toList.length = b.code.size := Array.length_toList
      rw [patched, List.take_left' hlen, List.drop_of_length_le (by simp), List.append_nil]
    · rw [fields_append]
      show b.fixups = _
      have hl : .bind l ∈ steps := by
        by_contra hl
        rw [h.labelOffset_eq_none.2 hl] at ht
        cases ht
      rw [h.fixups, List.filter_append]
      simp [fields, hl]

/-- One step, unless it binds a label again. -/
theorem step {s : Step} (h : Follows steps b) (hs : ∀ l, s = .bind l → s ∉ steps) (hsize : extent steps + s.size < 2 ^ 31)
    (log : Log) : ∃ b' log', s.run b log = ((.ok (), b'), log') ∧ Follows (steps ++ [s]) b' := by
  cases s with
  | bytes bs => exact ⟨_, log, rfl, h.write (by simp) (by simp [image]) (by simp [fields])⟩
  | word n w => exact ⟨_, log, rfl, h.write (by simp) (by simp [image]) (by simp [fields])⟩
  | bind l => exact h.bind (hs l rfl) hsize log
  | ref l =>
    obtain ⟨b', hrun, hb'⟩ := h.ref hsize log
    exact ⟨b', log, hrun, hb'⟩

/-- Steps that all succeed. -/
theorem run {b' : Buffer} : ∀ (more : List Step) {steps : List Step} {b : Buffer} {log log' : Log}, Follows steps b →
    extent (steps ++ more) < 2 ^ 31 → more.forM Step.run b log = ((.ok (), b'), log') → Follows (steps ++ more) b'
  | [], steps, b, log, log', h, _, hrun => by
    cases hrun
    rwa [List.append_nil]
  | s :: more, steps, b, log, log', h, hsize, hrun => by
    rw [List.forM] at hrun
    have hone : extent steps + s.size < 2 ^ 31 := by
      rw [extent_append, extent_cons] at hsize
      omega
    by_cases hs : ∀ l, s = .bind l → s ∉ steps
    · obtain ⟨b₁, log₁, hrun₁, h₁⟩ := h.step hs hone log
      rw [Assemble.run_bind hrun₁] at hrun
      simpa using run more h₁ (by simpa using hsize) hrun
    · push Not at hs
      obtain ⟨l, rfl, hl⟩ := hs
      simp only [Step.run, Bind.bind, ExceptT.bind, ExceptT.mk, StateT.bind, h.bind_again hl log, ExceptT.bindCont] at hrun
      cases hrun

/-- Steps that bind no label twice all succeed. -/
theorem runs : ∀ (more : List Step) {steps : List Step} {b : Buffer} (log : Log), Follows steps b →
    (bindings (steps ++ more)).Nodup → extent (steps ++ more) < 2 ^ 31 →
    ∃ b' log', more.forM Step.run b log = ((.ok (), b'), log')
  | [], steps, b, log, _, _, _ => ⟨b, log, rfl⟩
  | s :: more, steps, b, log, h, honce, hsize => by
    have hs : ∀ l, s = .bind l → s ∉ steps := by
      rintro l rfl
      exact not_mem_of_nodup honce
    have hone : extent steps + s.size < 2 ^ 31 := by
      rw [extent_append, extent_cons] at hsize
      omega
    obtain ⟨b₁, log₁, hrun₁, h₁⟩ := h.step hs hone log
    obtain ⟨b', log', hrun⟩ := runs more log₁ h₁ (by simpa using honce) (by simpa using hsize)
    refine ⟨b', log', ?_⟩
    rw [List.forM, Assemble.run_bind hrun₁]
    exact hrun

/-- A buffer is finished unless a reference waits for a label that was never bound; the first such label is named. -/
theorem finish (h : Follows steps b) : b.finish =
    match (references steps).find? fun l => .bind l ∉ steps with
    | none => .ok (b.code.toList, b.labels)
    | some l => .error (.unresolvedLabel l) := by
  have hfind : (references steps).find? (fun l => .bind l ∉ steps) = b.fixups.head?.map Fixup.label := by
    rw [h.fixups, List.head?_filter, ← map_label_fields 0, List.find?_map]
    rfl
  unfold Buffer.finish
  rw [hfind]
  cases b.fixups <;> rfl

end Follows

end Buffers

/-! ## Every order of steps -/

/-- A field reads back the distance that it was filled in with. -/
theorem toInt_leNat_littleEndian {d : Int} (hlo : -2 ^ 31 ≤ d) (hhi : d < 2 ^ 31) :
    (BitVec.ofNat 32 (leNat (littleEndian 4 (.ofInt 64 d)))).toInt = d := by
  have hword : BitVec.ofNat 32 (leNat (littleEndian 4 (.ofInt 64 d))) = BitVec.ofInt 32 d := by
    apply BitVec.eq_of_toNat_eq
    rw [leNat_littleEndian, BitVec.toNat_ofNat, BitVec.toNat_ofInt, BitVec.toNat_ofInt]
    omega
  rw [hword, BitVec.toInt_ofInt]
  exact Int.bmod_eq_of_le (by omega) (by omega)

/-- A finished buffer shows a step behind what stands before it. -/
theorem Follows.shown {b : Buffer} {before after : List Step} {s : Step} (h : Follows (before ++ s :: after) b)
    (hsize : extent (before ++ s :: after) < 2 ^ 31) (hbound : ∀ l, s = .ref l → .bind l ∈ before ++ s :: after) :
    s.Shown b.code.toList b.labels (extent before) := by
  have hdrop : b.code.toList.drop (extent before) = image b.labelOffset (extent before) (s :: after) := by
    rw [h.code, image_append, Nat.zero_add, List.drop_left' length_image]
  cases s with
  | bytes bs =>
    rw [Step.Shown, hdrop, image, List.take_left]
  | word n w =>
    rw [Step.Shown, hdrop, image, List.take_left' (length_littleEndian n w)]
  | bind l =>
    refine (congrFun h.labels l).trans ?_
    rw [boundAt_append, boundAt_eq_none.2 (not_mem_of_nodup h.once)]
    simp [boundAt]
  | ref l =>
    have hsome : b.labelOffset l ≠ none := by
      rw [ne_eq, h.labelOffset_eq_none]
      exact not_not_intro (hbound l rfl)
    obtain ⟨o, ho⟩ := Option.ne_none_iff_exists'.1 hsome
    have hle := boundAt_le ((congrFun h.labels l).symm.trans ho)
    refine ⟨o, ho, ?_⟩
    rw [extent_append, extent_cons, Step.size] at hsize hle
    rw [fieldAt, hdrop, image, List.take_left' (length_fieldBytes _ _), ho, fieldBytes,
      toInt_leNat_littleEndian (by omega) (by omega)]
    omega

/-- After any steps that succeed, the finished code and table show every step in its place, a label that was not bound
has no entry, a label can be bound exactly if it is not yet, and finishing fails exactly if a reference still waits, for
the earliest one. -/
theorem Buffer.shows_steps {n : Nat} {steps : List Step} {b : Buffer} {log log' : Log}
    (h : steps.forM Step.run (.withLabels n) log = ((.ok (), b), log')) (hsize : extent steps < 2 ^ 31) :
    (∀ code table, b.finish = .ok (code, table) → code.length = extent steps ∧
      (∀ before s after, steps = before ++ s :: after → s.Shown code table (extent before)) ∧
      ∀ l, .bind l ∉ steps → table[l.index]?.join = none) ∧
    (∀ l log, (Assemble.bind l b log).1.1 = if .bind l ∈ steps then .error (.labelRedefined l) else .ok ()) ∧
    b.finish = match (references steps).find? fun l => .bind l ∉ steps with
      | none => .ok (b.code.toList, b.labels)
      | some l => .error (.unresolvedLabel l) := by
  have hf : Follows steps b := Follows.run steps (.empty n) hsize h
  refine ⟨?_, ?_, hf.finish⟩
  · intro code table hfin
    rw [hf.finish] at hfin
    split at hfin
    · rename_i hnone
      cases hfin
      refine ⟨hf.size, ?_, fun l hl => hf.labelOffset_eq_none.2 hl⟩
      rintro before s after rfl
      refine hf.shown hsize ?_
      rintro l rfl
      have hmem : l ∈ references (before ++ .ref l :: after) := by simp [references]
      exact not_not.1 fun hl => List.find?_eq_none.1 hnone l hmem (decide_eq_true hl)
    · cases hfin
  · intro l log
    split
    · rename_i hl
      rw [hf.bind_again hl]
    · rename_i hl
      obtain ⟨b', log', hrun, -⟩ := hf.bind hl hsize log
      rw [hrun]

/-- Two labels, each referred to before and after it is bound, with a field between bytes of other steps. -/
def crossing : List Step :=
  [.ref ⟨3⟩, .bind ⟨0⟩, .bytes [0x90, 0x0f], .ref ⟨0⟩, .ref ⟨3⟩, .word 2 0x1234, .bind ⟨3⟩, .ref ⟨3⟩, .bind ⟨1⟩]

theorem Buffer.shows_steps_crossing : ∃ b log', crossing.forM Step.run (.withLabels 2) #[] = ((.ok (), b), log') ∧
    extent crossing < 2 ^ 31 ∧ ∃ code table, b.finish = .ok (code, table) ∧ code.length = 20 ∧
      ∀ before s after, crossing = before ++ s :: after → s.Shown code table (extent before) := by
  obtain ⟨b, log', h⟩ := Follows.runs crossing #[] (.empty 2) (by decide) (by decide)
  obtain ⟨hshown, -, hfin⟩ := Buffer.shows_steps h (by decide)
  obtain ⟨hlen, hplaces, -⟩ := hshown b.code.toList b.labels hfin
  exact ⟨b, log', h, by decide, _, _, hfin, hlen, hplaces⟩

end JitBackend
