import JitBackend.Proofs.Flatten
import JitBackend.Proofs.Mentions

/-!
# Labels of flattened code

Flattening places the labels of the source in their order, and between them new labels, each once. `Laid` says this of the
labels of a piece of code: below a bound they are those given, and from there on each number is placed once.
-/

namespace JitBackend

/-- The labels `ls` below the number `b` are `old`, and the others have the numbers from `m` up to `n`, each once. -/
structure Laid (b m n : Nat) (old ls : List Label) : Prop where
  bound : b ≤ m
  old : ls.filter (·.index < b) = old
  count : (ls.filter (b ≤ ·.index)).length + m = n
  range : ∀ l ∈ ls, b ≤ l.index → m ≤ l.index ∧ l.index < n
  once : (ls.filter (b ≤ ·.index)).Nodup

namespace Laid

variable {b m m' n : Nat} {old old' ls ls' : List Label}

theorem le (h : Laid b m n old ls) : m ≤ n := by
  have := h.count
  omega

theorem nil (hb : b ≤ m) : Laid b m m [] [] := ⟨hb, rfl, by simp, by simp, by simp⟩

/-- A label of the source. -/
theorem single {l : Label} (hb : b ≤ m) (hl : l.index < b) : Laid b m m [l] [l] := by
  have hnot : ¬b ≤ l.index := by omega
  exact ⟨hb, by simp [hl], by simp [hnot], by simp [hnot], by simp [hnot]⟩

theorem of_fresh {k : List Expr} (hb : b ≤ m) (h : Fresh m n k) : Laid b m n [] (placed k) := by
  have hall : (placed k).filter (b ≤ ·.index) = placed k := by
    rw [List.filter_eq_self]
    intro l hl
    have := h.range l hl
    simp only [decide_eq_true_eq]
    omega
  refine ⟨hb, ?_, by rw [hall]; exact h.count, fun l hl _ => h.range l hl, by rw [hall]; exact h.once⟩
  rw [List.filter_eq_nil_iff]
  intro l hl
  have := h.range l hl
  simp only [decide_eq_true_eq]
  omega

theorem append (h : Laid b m m' old ls) (h' : Laid b m' n old' ls') : Laid b m n (old ++ old') (ls ++ ls') := by
  have hle := h.le
  have hle' := h'.le
  refine ⟨h.bound, by rw [List.filter_append, h.old, h'.old], ?_, ?_, ?_⟩
  · have := h.count
    have := h'.count
    rw [List.filter_append, List.length_append]
    omega
  · intro l hl hb
    rcases List.mem_append.1 hl with hl | hl
    · have := h.range l hl hb
      omega
    · have := h'.range l hl hb
      omega
  · rw [List.filter_append, List.nodup_append]
    refine ⟨h.once, h'.once, ?_⟩
    rintro l hl l' hl' rfl
    simp only [List.mem_filter, decide_eq_true_eq] at hl hl'
    have := h.range l hl.1 hl.2
    have := h'.range l hl'.1 hl'.2
    omega

/-- Labels issued before the code of the parts may be placed anywhere between them. -/
theorem issue (h : Laid b m' n old ls) (new : List Label) (hold : ls'.filter (·.index < b) = ls.filter (·.index < b))
    (hperm : (ls'.filter (b ≤ ·.index)).Perm (new ++ ls.filter (b ≤ ·.index))) (hb : b ≤ m)
    (hm : new.length + m = m') (hnew : new.Nodup) (hrange : ∀ l ∈ new, m ≤ l.index ∧ l.index < m') :
    Laid b m n old ls' := by
  have hle := h.le
  refine ⟨hb, hold.trans h.old, ?_, ?_, ?_⟩
  · have := h.count
    rw [hperm.length_eq, List.length_append]
    omega
  · intro l hl hbl
    have hmem : l ∈ ls'.filter (b ≤ ·.index) := by simp [hl, hbl]
    rw [hperm.mem_iff, List.mem_append] at hmem
    rcases hmem with hmem | hmem
    · have := hrange l hmem
      omega
    · simp only [List.mem_filter, decide_eq_true_eq] at hmem
      have := h.range l hmem.1 hmem.2
      omega
  · rw [hperm.nodup_iff, List.nodup_append]
    refine ⟨hnew, h.once, ?_⟩
    rintro l hl l' hl' rfl
    simp only [List.mem_filter, decide_eq_true_eq] at hl'
    have := hrange l hl
    have := h.range l hl'.1 hl'.2
    omega

/-- Code made of code, where the labels of the first code are all that is not new. -/
theorem trans {p : Nat} (h : Laid b m n old ls) (h' : Laid n n p ls ls') : Laid b m p old ls' := by
  have hle := h.le
  have hbound := h.bound
  have hle' := h'.le
  have hsplit : (ls'.filter (b ≤ ·.index)).Perm (ls.filter (b ≤ ·.index) ++ ls'.filter (n ≤ ·.index)) := by
    have hlow : (ls'.filter (b ≤ ·.index)).filter (·.index < n) = ls.filter (b ≤ ·.index) := by
      rw [← h'.old, List.filter_filter, List.filter_filter]
      exact List.filter_congr fun l _ => Bool.and_comm _ _
    have hhigh : (ls'.filter (b ≤ ·.index)).filter (fun l => !decide (l.index < n)) = ls'.filter (n ≤ ·.index) := by
      rw [List.filter_filter]
      refine List.filter_congr fun l _ => ?_
      rw [Bool.eq_iff_iff]
      simp only [Bool.and_eq_true, Bool.not_eq_true', decide_eq_false_iff_not, decide_eq_true_eq]
      omega
    have hperm := List.filter_append_perm (fun l : Label => decide (l.index < n)) (ls'.filter (b ≤ ·.index))
    rw [hlow, hhigh] at hperm
    exact hperm.symm
  refine ⟨h.bound, ?_, ?_, ?_, ?_⟩
  · rw [← h.old, ← h'.old, List.filter_filter]
    refine List.filter_congr fun l _ => ?_
    rw [Bool.eq_iff_iff]
    simp only [Bool.and_eq_true, decide_eq_true_eq]
    omega
  · have := h.count
    have := h'.count
    rw [hsplit.length_eq, List.length_append]
    omega
  · intro l hl hbl
    by_cases hn : n ≤ l.index
    · have := h'.range l hl hn
      omega
    · have hmem : l ∈ ls := by
        rw [← h'.old]
        simp [hl]
        omega
      have := h.range l hmem hbl
      omega
  · rw [hsplit.nodup_iff, List.nodup_append]
    refine ⟨h.once, h'.once, ?_⟩
    rintro l hl l' hl' rfl
    simp only [List.mem_filter, decide_eq_true_eq] at hl hl'
    have := h.range l hl.1 hl.2
    omega

/-- Every number from the first to the last is placed. -/
theorem mem_iff (h : Laid b b n old ls) {l : Label} (hl : b ≤ l.index) : l ∈ ls ↔ l.index < n := by
  refine ⟨fun hmem => (h.range l hmem hl).2, fun hlt => ?_⟩
  -- a list of as many different numbers as there are in the range holds them all
  have hsub : ((ls.filter (b ≤ ·.index)).map Label.index).toFinset ⊆ Finset.Ico b n := by
    intro i hi
    simp only [List.mem_toFinset, List.mem_map, List.mem_filter, decide_eq_true_eq] at hi
    obtain ⟨l', ⟨hmem, hb⟩, rfl⟩ := hi
    exact Finset.mem_Ico.2 (h.range l' hmem hb)
  have hnodup : ((ls.filter (b ≤ ·.index)).map Label.index).Nodup :=
    h.once.map fun a c hac => by cases a; cases c; exact congrArg Label.mk hac
  have hcard : (Finset.Ico b n).card ≤ ((ls.filter (b ≤ ·.index)).map Label.index).toFinset.card := by
    have := h.count
    rw [List.toFinset_card_of_nodup hnodup, Nat.card_Ico, List.length_map]
    omega
  have hmem : l.index ∈ ((ls.filter (b ≤ ·.index)).map Label.index).toFinset := by
    rw [Finset.eq_of_subset_of_card_le hsub hcard]
    exact Finset.mem_Ico.2 ⟨hl, hlt⟩
  simp only [List.mem_toFinset, List.mem_map, List.mem_filter] at hmem
  obtain ⟨l', ⟨hmem, -⟩, hindex⟩ := hmem
  obtain rfl : l' = l := by
    cases l
    cases l'
    exact congrArg Label.mk hindex
  exact hmem

theorem count_old (h : Laid b m n old ls) {l : Label} (hl : l.index < b) : ls.count l = old.count l := by
  rw [← h.old, List.count_filter (by simpa using hl)]

theorem count_new (h : Laid b b n old ls) {l : Label} (hl : b ≤ l.index) :
    ls.count l = if l.index < n then 1 else 0 := by
  have hcount : ls.count l = (ls.filter (b ≤ ·.index)).count l := (List.count_filter (by simpa using hl)).symm
  split
  · rename_i hlt
    rw [hcount, List.count_eq_one_of_mem h.once (by simpa [hl] using (h.mem_iff hl).2 hlt)]
  · rename_i hlt
    exact List.count_eq_zero.2 fun hmem => hlt ((h.mem_iff hl).1 hmem)

end Laid

namespace Stmt

mutual
/-- The labels that stand as statements, in the order of their code: a loop has its body before its step. -/
def labels : Stmt → List Label
  | block list => labelsL list
  | ite _ t e => labels t ++ labelsO e
  | loop i _ p b => labelsO i ++ (labels b ++ labelsO p)
  | exit _ => []
  | expr e => placed [e]
def labelsL : List Stmt → List Label
  | [] => []
  | s :: ss => labels s ++ labelsL ss
def labelsO : Option Stmt → List Label
  | none => []
  | some s => labels s
end

theorem mentions_of_placed {e : Expr} {l : Label} (h : l ∈ placed [e]) : l ∈ e.mentions := by
  cases e <;> simp_all [placed, Expr.mentions]

mutual
theorem mentions_of_labels {l : Label} : ∀ s : Stmt, l ∈ s.labels → l ∈ s.mentions
  | block list, h => by
    rw [labels] at h
    rw [mentions]
    exact mentionsL_of_labelsL list h
  | expr e, h => by
    rw [labels] at h
    rw [mentions]
    exact mentions_of_placed h
  | ite c t e, h => by
    rw [labels, List.mem_append] at h
    simp only [mentions, List.mem_append]
    exact .inr (h.imp (mentions_of_labels t) (mentionsO_of_labelsO e))
  | loop i c p b, h => by
    simp only [labels, List.mem_append] at h
    simp only [mentions, List.mem_append]
    rcases h with h | h | h
    · exact .inl (mentionsO_of_labelsO i h)
    · exact .inr (.inr (.inr (mentions_of_labels b h)))
    · exact .inr (.inr (.inl (mentionsO_of_labelsO p h)))
  | exit _, h => by simp [labels] at h
theorem mentionsL_of_labelsL {l : Label} : ∀ ss : List Stmt, l ∈ labelsL ss → l ∈ mentionsL ss
  | [], h => by simp [labelsL] at h
  | s :: ss, h => by
    rw [labelsL, List.mem_append] at h
    rw [mentionsL, List.mem_append]
    exact h.imp (mentions_of_labels s) (mentionsL_of_labelsL ss)
theorem mentionsO_of_labelsO {l : Label} : ∀ o : Option Stmt, l ∈ labelsO o → l ∈ mentionsO o
  | none, h => by simp [labelsO] at h
  | some s, h => by
    rw [labelsO] at h
    rw [mentionsO]
    exact mentions_of_labels s h
end

end Stmt

/-- The code `k` of a statement, with the labels of the loop around it, has been appended. Its labels below the bound are
those of the statement, and the others are new. It refers to labels of the statement, of the loop and to new ones. -/
structure Flat.Lays (b : Nat) (old cited : List Label) (around : Option LoopLabels) (f f' : Flat)
    (k : List Expr) : Prop where
  code : f'.code.toList = f.code.toList ++ k
  laid : Laid b f.func.labels.size f'.func.labels.size old (placed k)
  inside : ∀ S : Label → Prop, (∀ l ∈ cited, S l) → (∀ r ∈ around, ∀ x, S (r.target x)) →
    (∀ l, f.func.labels.size ≤ l.index → l.index < f'.func.labels.size → S l) → ∀ e ∈ k, e.Inside S

section Pieces

variable {b : Nat} {old old' old'' cited cited' cited'' : List Label} {around : Option LoopLabels}
  {f f₁ f₂ f₃ f₄ f₅ f' : Flat} {kt ke ki kb kp : List Expr}

/-- An expression that is appended, or dropped if it has no effect. -/
theorem Flat.Lays.expr {e : Expr} (hb : b ≤ f.func.labels.size) (hl : ∀ l ∈ placed [e], l.index < b)
    (hfunc : f'.func = f.func) (hcode : f'.code.toList = f.code.toList ++ if e.isEffectFree then [] else [e]) :
    f.Lays b (placed [e]) e.mentions around f' (if e.isEffectFree then [] else [e]) := by
  refine ⟨hcode, ?_, fun S hS _ _ d hd => ?_⟩
  · rw [hfunc]
    by_cases hlabel : ∃ l, e = .label l
    · obtain ⟨l, rfl⟩ := hlabel
      exact .single hb (hl l (by simp))
    · have hnone : placed [e] = [] := by
        cases e <;> first | rfl | exact absurd ⟨_, rfl⟩ hlabel
      have hnone' : placed (if e.isEffectFree = true then [] else [e]) = [] := by
        split
        · rfl
        · exact hnone
      rw [hnone, hnone']
      exact .nil hb
  · split at hd
    · cases hd
    · obtain rfl := List.mem_singleton.1 hd
      exact ⟨hS⟩

/-- The code of a condition, from that of its branches. -/
theorem Flat.Lays.ite {c d : Expr} (hb : b ≤ f.func.labels.size) (hnot : Expr.mkUnary .lnot c = .ok d)
    (h₁ : f.Adds 2 f₁ [jumpIf ⟨f.func.labels.size⟩ d]) (ht : f₁.Lays b old cited around f₂ kt)
    (h₂ : f₂.Adds 0 f₃ [Expr.jumpTo ⟨f.func.labels.size + 1⟩, .label ⟨f.func.labels.size⟩])
    (he : f₃.Lays b old' cited' around f₄ ke) (h₃ : f₄.Adds 0 f' [.label ⟨f.func.labels.size + 1⟩]) :
    f.Lays b (old ++ old') (c.mentions ++ (cited ++ cited')) around f' (jumpIf ⟨f.func.labels.size⟩ d ::
      (kt ++ Expr.jumpTo ⟨f.func.labels.size + 1⟩ :: .label ⟨f.func.labels.size⟩ ::
        (ke ++ [.label ⟨f.func.labels.size + 1⟩]))) := by
  have hn₁ := h₁.labels
  have hn₂ := h₂.labels
  have hn₃ := h₃.labels
  have hle := ht.laid.le
  have hle' := he.laid.le
  refine ⟨?_, ?_, fun S hS hr hnew => ?_⟩
  · rw [h₃.code, he.code, h₂.code, ht.code, h₁.code]
    simp
  · have hthen := ht.laid
    have helse := he.laid
    rw [hn₁] at hthen
    rw [hn₂] at helse
    rw [hn₃]
    have hb₁ : b ≤ f.func.labels.size + 1 := by omega
    refine (hthen.append helse).issue [⟨f.func.labels.size⟩, ⟨f.func.labels.size + 1⟩] ?_ ?_ hb (Nat.add_comm 2 _) ?_ ?_
    · simp [List.filter_append, hb, hb₁]
    · simpa [List.filter_append, hb, hb₁] using perm_interleave ((placed kt).filter (b ≤ ·.index))
        ((placed ke).filter (b ≤ ·.index)) [⟨f.func.labels.size + 1⟩] ⟨f.func.labels.size⟩
    · simp
    · simp
  · rw [List.forall_mem_append, List.forall_mem_append] at hS
    have := Expr.inside_lnot ⟨hS.1⟩ hnot
    have := Expr.Inside.label (hnew ⟨f.func.labels.size⟩ le_rfl (by dsimp only; omega))
    have := Expr.Inside.label (hnew ⟨f.func.labels.size + 1⟩ (Nat.le_succ _) (by dsimp only; omega))
    have hthen := ht.inside S hS.2.1 hr fun l hlo hhi => hnew l (by omega) (by omega)
    have helse := he.inside S hS.2.2 hr fun l hlo hhi => hnew l (by omega) (by omega)
    rw [List.forall_mem_cons, List.forall_mem_append, List.forall_mem_cons, List.forall_mem_cons, List.forall_mem_append,
      List.forall_mem_singleton]
    exact ⟨by unfold jumpIf; infer_instance, hthen, inferInstance, inferInstance, helse, inferInstance⟩

/-- The code of a loop, from that of its start, its body and its step. -/
theorem Flat.Lays.loop {c : Option Expr} (hb : b ≤ f.func.labels.size) (h₁ : f.Adds 3 f₁ [])
    (hi : f₁.Lays b old cited around f₂ ki)
    (h₂ : f₂.Adds 0 f₃ [Expr.jumpTo ⟨f.func.labels.size + 1⟩, .label ⟨f.func.labels.size⟩])
    (hbody : f₃.Lays b old' cited' (some ⟨⟨f.func.labels.size + 2⟩, ⟨f.func.labels.size + 1⟩⟩) f₄ kb)
    (hp : f₄.Lays b old'' cited'' (some ⟨⟨f.func.labels.size + 2⟩, ⟨f.func.labels.size + 1⟩⟩) f₅ kp)
    (h₃ : f₅.Adds 0 f' [.label ⟨f.func.labels.size + 1⟩, jumpIf ⟨f.func.labels.size⟩ (Stmt.loopCond c),
      .label ⟨f.func.labels.size + 2⟩]) :
    f.Lays b (old ++ (old' ++ old'')) (cited ++ ((c.map Expr.mentions).getD [] ++ (cited'' ++ cited'))) around f'
      (ki ++ Expr.jumpTo ⟨f.func.labels.size + 1⟩ :: .label ⟨f.func.labels.size⟩ :: (kb ++ kp ++
        [.label ⟨f.func.labels.size + 1⟩, jumpIf ⟨f.func.labels.size⟩ (Stmt.loopCond c),
          .label ⟨f.func.labels.size + 2⟩])) := by
  have hn₁ := h₁.labels
  have hn₂ := h₂.labels
  have hn₃ := h₃.labels
  have hle := hi.laid.le
  have hle' := hbody.laid.le
  have hle'' := hp.laid.le
  refine ⟨?_, ?_, fun S hS hr hnew => ?_⟩
  · rw [h₃.code, hp.code, hbody.code, h₂.code, hi.code, h₁.code]
    simp
  · have hinit := hi.laid
    have hturn := hbody.laid.append hp.laid
    rw [hn₁] at hinit
    rw [hn₂] at hturn
    rw [hn₃]
    have hb₁ : b ≤ f.func.labels.size + 1 := by omega
    have hb₂ : b ≤ f.func.labels.size + 2 := by omega
    refine (hinit.append hturn).issue
      [⟨f.func.labels.size⟩, ⟨f.func.labels.size + 1⟩, ⟨f.func.labels.size + 2⟩] ?_ ?_ hb (Nat.add_comm 3 _) ?_ ?_
    · simp [List.filter_append, hb, hb₁, hb₂]
    · simpa [List.filter_append, hb, hb₁, hb₂] using perm_interleave ((placed ki).filter (b ≤ ·.index))
        ((placed (kb ++ kp)).filter (b ≤ ·.index)) [⟨f.func.labels.size + 1⟩, ⟨f.func.labels.size + 2⟩]
        ⟨f.func.labels.size⟩
    · simp
    · simp
  · rw [List.forall_mem_append, List.forall_mem_append, List.forall_mem_append] at hS
    have htarget : ∀ i < 3, S ⟨f.func.labels.size + i⟩ := fun i hi =>
      hnew ⟨f.func.labels.size + i⟩ (Nat.le_add_right _ _) (by dsimp only; omega)
    have := Expr.Inside.label (htarget 0 (by decide))
    have := Expr.Inside.label (htarget 1 (by decide))
    have := Expr.Inside.label (htarget 2 (by decide))
    have hcond : (Stmt.loopCond c).Inside S := by
      cases c with
      | none => exact inferInstanceAs (Expr.Inside S (.const _))
      | some c => exact ⟨hS.2.1⟩
    have hloop : ∀ r ∈ some (⟨⟨f.func.labels.size + 2⟩, ⟨f.func.labels.size + 1⟩⟩ : LoopLabels), ∀ x, S (r.target x) := by
      rintro r ⟨⟩ x
      cases x
      · exact htarget 2 (by decide)
      · exact htarget 1 (by decide)
    have hinitIn := hi.inside S hS.1 hr fun l hlo hhi => hnew l (by omega) (by omega)
    have hbodyIn := hbody.inside S hS.2.2.2 hloop fun l hlo hhi => hnew l (by omega) (by omega)
    have hpostIn := hp.inside S hS.2.2.1 hloop fun l hlo hhi => hnew l (by omega) (by omega)
    rw [List.forall_mem_append, List.forall_mem_cons, List.forall_mem_cons, List.forall_mem_append, List.forall_mem_append,
      List.forall_mem_cons, List.forall_mem_cons, List.forall_mem_singleton]
    exact ⟨hinitIn, inferInstance, inferInstance, ⟨hbodyIn, hpostIn⟩, inferInstance, by unfold jumpIf; infer_instance,
      inferInstance⟩

end Pieces

namespace Stmt

variable {b : Nat}

mutual
theorem flatten_lays : ∀ (s : Stmt) (around : Option LoopLabels) {f f' : Flat}, b ≤ f.func.labels.size →
    (∀ l ∈ s.labels, l.index < b) → (flatten around s).Gives f () f' → ∃ k, f.Lays b s.labels s.mentions around f' k
  | .block ss, around, f, f', hb, hl, h => by
    rw [flatten] at h
    rw [labels] at hl
    rw [labels, mentions]
    exact flattenL_lays ss around hb hl h
  | .expr e, around, f, f', hb, hl, h => by
    rw [flatten] at h
    rw [labels] at hl
    rw [labels, mentions]
    obtain ⟨hfunc, hcode⟩ := h.add
    exact ⟨_, .expr hb hl hfunc hcode⟩
  | .exit e, around, f, f', hb, hl, h => by
    cases around with
    | none =>
      rw [flatten] at h
      obtain ⟨log, log', h⟩ := h
      cases h
    | some l =>
      rw [flatten] at h
      have hadd := h.add_kept rfl
      refine ⟨_, hadd.code, ?_, fun S _ hr _ => ?_⟩
      · rw [hadd.labels]
        exact .nil hb
      · have := Expr.Inside.label (hr l rfl e)
        exact List.forall_mem_singleton.2 inferInstance
  | .ite c t e, around, f, f', hb, hl, h => by
    rw [labels, List.forall_mem_append] at hl
    rw [labels, mentions]
    obtain ⟨d, f₁, f₂, f₃, f₄, hnot, h₁, hthen, h₂, helse, h₃⟩ := h.ite
    have hn₁ := h₁.labels
    have hn₂ := h₂.labels
    obtain ⟨kt, hkt⟩ := flatten_lays t around (by omega) hl.1 hthen
    have hle := hkt.laid.le
    obtain ⟨ke, hke⟩ := flattenO_lays e around (by omega) hl.2 helse
    exact ⟨_, .ite hb hnot h₁ hkt h₂ hke h₃⟩
  | .loop i c p body, around, f, f', hb, hl, h => by
    rw [labels, List.forall_mem_append, List.forall_mem_append] at hl
    rw [labels, mentions]
    obtain ⟨f₁, f₂, f₃, f₄, f₅, h₁, hinit, h₂, hbody, hpost, h₃⟩ := h.loop
    have hn₁ := h₁.labels
    have hn₂ := h₂.labels
    obtain ⟨ki, hki⟩ := flattenO_lays i around (by omega) hl.1 hinit
    have hle := hki.laid.le
    obtain ⟨kb, hkb⟩ := flatten_lays body _ (by omega) hl.2.1 hbody
    have hle' := hkb.laid.le
    obtain ⟨kp, hkp⟩ := flattenO_lays p _ (by omega) hl.2.2 hpost
    exact ⟨_, .loop hb h₁ hki h₂ hkb hkp h₃⟩
theorem flattenL_lays : ∀ (ss : List Stmt) (around : Option LoopLabels) {f f' : Flat}, b ≤ f.func.labels.size →
    (∀ l ∈ labelsL ss, l.index < b) → (flattenL around ss).Gives f () f' →
    ∃ k, f.Lays b (labelsL ss) (mentionsL ss) around f' k
  | [], around, f, f', hb, _, h => by
    rw [flattenL] at h
    obtain rfl := h.pure.2
    exact ⟨[], by simp, .nil hb, by simp⟩
  | s :: ss, around, f, f', hb, hl, h => by
    rw [flattenL] at h
    rw [labelsL, List.forall_mem_append] at hl
    obtain ⟨_, f₁, hs, hss⟩ := h.bind
    obtain ⟨k, hk⟩ := flatten_lays s around hb hl.1 hs
    obtain ⟨ks, hks⟩ := flattenL_lays ss around (hb.trans hk.laid.le) hl.2 hss
    refine ⟨k ++ ks, by rw [hks.code, hk.code, List.append_assoc], ?_, fun S hS hr hnew => ?_⟩
    · rw [labelsL, placed_append]
      exact hk.laid.append hks.laid
    · rw [mentionsL, List.forall_mem_append] at hS
      have hle := hk.laid.le
      have hle' := hks.laid.le
      rw [List.forall_mem_append]
      exact ⟨hk.inside S hS.1 hr fun l hlo hhi => hnew l hlo (by omega),
        hks.inside S hS.2 hr fun l hlo hhi => hnew l (by omega) hhi⟩
theorem flattenO_lays : ∀ (o : Option Stmt) (around : Option LoopLabels) {f f' : Flat}, b ≤ f.func.labels.size →
    (∀ l ∈ labelsO o, l.index < b) → (flattenO around o).Gives f () f' → ∃ k, f.Lays b (labelsO o) (mentionsO o) around f' k
  | none, around, f, f', hb, _, h => by
    rw [flattenO] at h
    obtain rfl := h.pure.2
    exact ⟨[], by simp, .nil hb, by simp⟩
  | some s, around, f, f', hb, hl, h => by
    rw [flattenO] at h
    rw [labelsO] at hl
    rw [labelsO, mentionsO]
    exact flatten_lays s around hb hl h
end

end Stmt

end JitBackend
