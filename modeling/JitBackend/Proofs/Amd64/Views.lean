import JitBackend.Proofs.Amd64.Sums

/-!
# What a machine shows of a store

A view says which registers have their values in their places and which bytes are those of the store. A machine shows a
store through a view. Code that changes free cells only keeps what is shown. A `Sink` is a place that a value is
computed into: once the value is there, the machine shows another store (`after`), through the view of the registers
that do not live in that place.
-/

namespace JitBackend.Amd64

open Lower

/-! ## Places of registers -/

section Places

variable {A : Activation} {μ : Mark} {m : Machine} {r : Reg} {p : Expr}

theorem slot_eq (o : Nat) : (AddrMode.ofBase rsp (.ofInt 32 o)) = .ofBase rsp (.ofNat 32 o) := by
  rw [BitVec.ofInt_natCast]

/-- The cells of a place: a home of soft registers or the stack pointer, or bytes of the spill area. -/
theorem Placed.cells (h : Placed A.frame r) (hp : A.frame.resolve r = .ok p) (hsp : m.regs rsp = A.sp) {c : Cell}
    (hc : c ∈ m.cells p) : (∃ g, c = .reg g ∧ (g ∈ homes ∨ g = rsp)) ∨
      ∃ b, c = .byte b ∧ (b - A.sp).toNat < A.frame.alloc.frame := by
  cases h with
  | reg g hmem he =>
    cases he.symm.trans hp
    obtain ⟨g', hg', rfl⟩ := hc
    cases hg'
    exact .inl ⟨g, rfl, .inl hmem⟩
  | slot o hle he =>
    cases he.symm.trans hp
    have hfits := A.fits
    rw [slot_eq] at hc
    rcases hc with ⟨g, hg, rfl⟩ | hc
    · exact .inl ⟨g, rfl, .inr (by simpa [AddrMode.regs, AddrMode.ofBase] using hg)⟩
    · rw [address_slot hsp (by omega)] at hc
      obtain ⟨b, rfl, hb⟩ := hc
      obtain ⟨hlo, hhi⟩ := (mem_bytesAt_slot (by omega)).1 ⟨b, rfl, hb⟩
      exact .inr ⟨b, rfl, by omega⟩

/-- The place of a register is in use at every mark. -/
theorem Placed.stable (h : Placed A.frame r) (hp : A.frame.resolve r = .ok p) (hsp : m.regs rsp = A.sp) :
    Disjoint (m.cells p) (A.free μ) := by
  rw [Set.disjoint_left]
  intro c hc hf
  rcases h.cells hp hsp hc with ⟨g, rfl, hg | rfl⟩ | ⟨b, rfl, hb⟩
  · exact Activation.not_free_of_home hg hf
  · exact Activation.rsp_not_free hf
  · have := hf.1
    omega

theorem Placed.kind (h : Placed A.frame r) (hp : A.frame.resolve r = .ok p) : p.kind = r.kind := by
  cases h with
  | reg g hmem he =>
    cases he.symm.trans hp
    rfl
  | slot o hle he =>
    cases he.symm.trans hp
    rfl

end Places

/-! ## Views -/

/-- Which registers have their values in their places, and which bytes are those of the store. -/
structure View (A : Activation) where
  live : Reg → Prop
  readable : Word → Bool
  scalar : ∀ {r}, live r → r.kind.isScalar = true
  placed : ∀ {r}, live r → Placed A.frame r
  outside : ∀ {b}, readable b = true → b ∉ A.stack

namespace View

variable {A : Activation}

/-- The registers that do not live in the place `dst`. -/
def without (V : View A) (dst : Expr) : View A where
  live r := V.live r ∧ ∀ p, A.frame.resolve r = .ok p → samePlace p dst = false
  readable := V.readable
  scalar h := V.scalar h.1
  placed h := V.placed h.1
  outside h := V.outside h

/-- The machine has the values of the store where the view says. -/
structure Shows (V : View A) (σ : Store) (m : Machine) : Prop where
  sp : m.regs rsp = A.sp
  regs : ∀ {r p}, V.live r → A.frame.resolve r = .ok p → m.Holds (σ.get (.reg r)) p
  bytes : ∀ {b}, V.readable b = true → m.mem b = σ.mem b

variable {V : View A} {σ : Store} {m m' : Machine} {μ : Mark}

theorem Shows.without (h : V.Shows σ m) (dst : Expr) : (V.without dst).Shows σ m :=
  ⟨h.sp, fun hr hp => h.regs hr.1 hp, fun hb => h.bytes hb⟩

theorem byte_not_free {b : Word} (hb : V.readable b = true) : Cell.byte b ∉ A.free μ := fun hf => V.outside hb hf.2

/-- What is shown does not depend on free cells. -/
theorem stable (V : View A) (σ : Store) : Stable A (V.Shows σ) := by
  intro μ m m' h hk
  refine ⟨(hk.regs rsp Activation.rsp_not_free).trans h.sp, ?_, ?_⟩
  · intro r p hr hp
    exact (h.regs hr hp).keeps hk ((V.placed hr).stable hp h.sp)
  · intro b hb
    exact (hk.bytes b (byte_not_free hb)).trans (h.bytes hb)

/-- A load from readable bytes finds the value of the store. -/
theorem Shows.load {k : Kind} {w : Word} {c : Const} (h : V.Shows σ m) (hk : k.isScalar = true)
    (hc : σ.load? V.readable k w = some c) :
    c.kind = k ∧ m.mem.read w k.size = low k.size c.re ∧ Disjoint (bytesAt w k.size) (A.free μ) := by
  unfold Store.load? at hc
  split at hc
  · rename_i hload
    simp only [Bool.and_eq_true, List.all_eq_true, List.mem_range] at hload
    obtain ⟨hall, hbool⟩ := hload
    cases hc
    have hpart : k.partSize = k.size := by
      unfold Kind.partSize
      rw [Kind.not_isComplex_of_isScalar hk, if_neg (by simp)]
    have hread : m.mem.read w k.size = σ.mem.read w k.size := Memory.read_congr fun i hi => h.bytes (hall i hi)
    refine ⟨rfl, ?_, ?_⟩
    · rw [hread]
      simp only [Store.get, hpart]
      by_cases hw : k.isWord = true
      · have hre : ∀ w' w'' : Word, low k.size (Const.ofBits k w' w'').re = low k.size w' :=
          fun w' _ => Const.low_re_ofBits hw w'
        rw [hre, Memory.low_read _ _ le_rfl]
      · have hb : k = .bool := by simpa [Kind.isScalar, hw, Kind.isBool] using hk
        subst hb
        have hle : σ.mem.read w 1 ≤ 1 := by simpa using hbool
        have hcases : σ.mem.read w 1 = 0 ∨ σ.mem.read w 1 = 1 := by bv_omega
        show σ.mem.read w 1 = low 1 (if σ.mem.read w 1 = 0 then 0 else 1)
        rcases hcases with h0 | h1
        · rw [h0]
          decide
        · rw [h1]
          decide
    · rw [Set.disjoint_left]
      rintro x ⟨b, rfl, hb⟩
      refine byte_not_free (V := V) ?_
      have hsum : w + .ofNat 64 (b - w).toNat = b := by
        rw [BitVec.ofNat_toNat, BitVec.setWidth_eq, BitVec.add_comm, BitVec.sub_add_cancel]
      rw [← hsum]
      exact hall _ hb
  · cases hc

end View

/-! ## Sinks -/

/-- A place that a value is computed into. With a value there, the machine shows another store, unless the place is local
to the function; then it is the same store. -/
structure Sink {A : Activation} (V : View A) (σ : Store) (after : Const → Store) (dst : Expr) (T : Set Cell) : Prop where
  store : ∀ {μ m m' c}, V.Shows σ m ∨ (∃ d, (V.without dst).Shows (after d) m) → Dest A μ m dst T →
    Keeps (A.free μ ∪ T) m m' → m'.Holds c dst → (V.without dst).Shows (after c) m'
  origin : (∀ c, after c = σ) ∨
    (dst.isReg = false ∧ ∀ r p, V.live r → A.frame.resolve r = .ok p → samePlace p dst = false)

section Sink

variable {A : Activation} {V : View A} {σ : Store} {after : Const → Store} {dst : Expr} {T : Set Cell} {μ : Mark}

/-- A sink that holds a value takes another one. -/
theorem Sink.rest (h : Sink V σ after dst T) (c : Const) : Sink (V.without dst) (after c) after dst T where
  store hm hd hk hh := by
    refine (h.store (.inr ?_) hd hk hh).without dst
    rcases hm with hm | ⟨d, hm⟩
    · exact ⟨c, hm⟩
    · exact ⟨d, ⟨hm.sp, fun hr hp => hm.regs ⟨hr, hr.2⟩ hp, fun hb => hm.bytes hb⟩⟩
  origin := by
    rcases h.origin with hl | ⟨hreg, hsep⟩
    · exact .inl fun d => (hl d).trans (hl c).symm
    · exact .inr ⟨hreg, fun r p hr hp => hsep r p hr.1 hp⟩

/-- A place apart from the readable bytes and from the places of the other registers. -/
theorem Sink.of_apart (hsp : Cell.reg rsp ∉ T) (hbytes : ∀ b, V.readable b = true → Cell.byte b ∉ T)
    (hsep : ∀ r p (m : Machine), (V.without dst).live r → A.frame.resolve r = .ok p → m.regs rsp = A.sp →
      Disjoint (m.cells p) T) :
    Sink V σ (fun _ => σ) dst T where
  store := by
    intro μ m m' c hm _ hk _
    have hm : (V.without dst).Shows σ m := by
      rcases hm with hm | ⟨_, hm⟩
      · exact hm.without dst
      · exact hm
    refine ⟨(hk.regs rsp fun hf => hf.elim Activation.rsp_not_free hsp).trans hm.sp, ?_, ?_⟩
    · intro r p hr hp
      refine (hm.regs hr hp).keeps hk (Set.disjoint_union_right.2 ⟨((V.without dst).placed hr).stable hp hm.sp, ?_⟩)
      exact hsep r p m hr hp hm.sp
    · intro b hb
      exact (hk.bytes b fun hf => hf.elim (View.byte_not_free (V := V) hb) (hbytes b hb)).trans (hm.bytes hb)
  origin := .inl fun _ => rfl

/-- Cells that were free. -/
theorem Sink.temp (hT : T ⊆ A.free μ) : Sink V σ (fun _ => σ) dst T := by
  refine .of_apart (fun hf => Activation.rsp_not_free (hT hf)) (fun b hb hf => View.byte_not_free (V := V) hb (hT hf)) ?_
  intro r p m hr hp hsp
  exact ((V.placed hr.1).stable hp hsp).mono_right hT

theorem bytesAt_inj {a b : Word} {n : Nat} (h0 : 0 < n) (hn : n ≤ 8) (h : bytesAt a n = bytesAt b n) : a = b := by
  have hmem : ∀ a : Word, Cell.byte a ∈ bytesAt a n := fun a => ⟨a, rfl, by simpa using h0⟩
  have ha := hmem a
  have hb := hmem b
  rw [h] at ha
  rw [← h] at hb
  obtain ⟨_, ⟨⟩, ha⟩ := ha
  obtain ⟨_, ⟨⟩, hb⟩ := hb
  bv_omega

theorem Dest.address {k : Kind} {ro : Bool} {a : AddrMode} {m : Machine} (h : Dest A μ m (.memAt k ro a) T) :
    T = bytesAt (m.address a) k.size ∧ ∀ r ∈ a.regs, Cell.reg r ∉ A.free μ := by
  cases h with
  | mem hk hregs hfree => exact ⟨rfl, hregs⟩

/-- Memory outside of the stack area. -/
theorem Sink.memory {k : Kind} {ro : Bool} {a : AddrMode} {w : Word} (hk : k.isScalar = true)
    (hout : ∀ b, Cell.byte b ∈ bytesAt w k.size → b ∉ A.stack)
    (hplace : ∀ r p, V.live r → A.frame.resolve r = .ok p → samePlace p (.memAt k ro a) = false) :
    Sink V σ (fun c => σ.set (.mem k w) c) (.memAt k ro a) (bytesAt w k.size) where
  store := by
    intro μ m m' c hm hd hkeep hh
    have hsize := Kind.size_of_isScalar hk
    have hpart : k.partSize = k.size := by
      unfold Kind.partSize
      rw [Kind.not_isComplex_of_isScalar hk, if_neg (by simp)]
    have hset : ∀ d b, (σ.set (.mem k w) d).mem b = σ.mem.write w k.size d.re b := by
      intro d b
      simp only [Store.set, hpart, Kind.not_isComplex_of_isScalar hk, Bool.false_eq_true, if_false]
    -- what is shown before: the registers, and the bytes outside of the place
    obtain ⟨hsp, hregs, hbytes⟩ : m.regs rsp = A.sp ∧
        (∀ {r p}, (V.without (.memAt k ro a)).live r → A.frame.resolve r = .ok p → m.Holds (σ.get (.reg r)) p) ∧
        ∀ {b}, V.readable b = true → k.size ≤ (b - w).toNat → m.mem b = σ.mem b := by
      rcases hm with hm | ⟨d, hm⟩
      · exact ⟨hm.sp, fun hr hp => hm.regs hr.1 hp, fun hb _ => hm.bytes hb⟩
      · refine ⟨hm.sp, fun hr hp => hm.regs hr hp, fun hb hge => ?_⟩
        rw [hm.bytes hb, hset, Memory.write_of_ge hge]
    obtain ⟨haddr, hfree⟩ := hd.address
    obtain rfl := bytesAt_inj (by omega) (by omega) haddr
    have haddr' : m'.address a = m.address a := hkeep.address fun r hr hf => hf.elim (hfree r hr) reg_not_mem_bytesAt
    refine ⟨(hkeep.regs rsp fun hf => hf.elim Activation.rsp_not_free reg_not_mem_bytesAt).trans hsp, ?_, ?_⟩
    · intro r p hr hp
      refine (hregs hr hp).keeps hkeep (Set.disjoint_union_right.2 ⟨(V.placed hr.1).stable hp hsp, ?_⟩)
      rw [Set.disjoint_left]
      intro x hx hT
      rcases (V.placed hr.1).cells hp hsp hx with ⟨g, rfl, -⟩ | ⟨b, rfl, hb⟩
      · exact reg_not_mem_bytesAt hT
      · exact hout b hT (show (b - A.sp).toNat < _ by omega)
    · intro b hb
      rw [hset]
      by_cases hlt : (b - m.address a).toNat < k.size
      · cases hh with
        | mem _ hv =>
          rw [haddr'] at hv
          exact Memory.eq_write_of_read (by omega) hv hlt
      · rw [Memory.write_of_ge (by omega), ← hbytes hb (by omega)]
        refine hkeep.bytes b fun hf => hf.elim (View.byte_not_free (V := V) hb) ?_
        rintro ⟨b', hb', hlt'⟩
        cases hb'
        exact hlt hlt'
  origin := .inr ⟨rfl, hplace⟩

end Sink

/-! ## Hazards -/

section Hazards

variable {A : Activation} {V : View A} {f : Frame} {μ : Mark} {m : Machine} {e p dst : Expr} {r : Reg} {T : Set Cell}

/-- Some register of the expression lives in the place `dst`. -/
def ReadsPlace (f : Frame) (dst e : Expr) : Prop := ∃ r ∈ e.regs, ∃ p, f.resolve r = .ok p ∧ samePlace p dst = true

theorem reads_eq_ok (h : Plain f e) (hsp : hardOf dst ≠ some rsp) :
    ∃ b, reads f dst e = .ok b ∧ (b = true ↔ ReadsPlace f dst e) := by
  have hbinary : ∀ {x y b b'}, reads f dst x = .ok b → reads f dst y = .ok b' → (b = true ↔ ReadsPlace f dst x) →
      (b' = true ↔ ReadsPlace f dst y) → ∀ {op k}, ∃ d, reads f dst (.binary op k x y) = .ok d ∧
        (d = true ↔ ReadsPlace f dst (.binary op k x y)) := by
    intro x y b b' hx hy hbx hby op k
    have hor : ReadsPlace f dst (.binary op k x y) ↔ ReadsPlace f dst x ∨ ReadsPlace f dst y := by
      simp only [ReadsPlace, Expr.regs, List.mem_append, or_and_right, exists_or]
    refine ⟨b || b', ?_, by rw [hor, Bool.or_eq_true, hbx, hby]⟩
    rw [reads, hx]
    cases b <;> simp [bind, Except.bind, hy, pure, Except.pure]
  induction h with
  | const hk hc => exact ⟨false, by rw [reads], by simp [ReadsPlace, Expr.regs]⟩
  | @reg r hk hs hr =>
    have hone : ∀ {p}, f.resolve r = .ok p → (ReadsPlace f dst (.reg r) ↔ samePlace p dst = true) := by
      intro p hp
      simp [ReadsPlace, Expr.regs, hp]
    cases hr with
    | reg g hmem he => exact ⟨_, by rw [reads, he]; rfl, (hone he).symm⟩
    | slot o hle he =>
      refine ⟨_, by rw [reads, he]; rfl, ?_⟩
      have huses : usesPlace (.ofBase rsp (.ofInt 32 o)) dst = false := by
        unfold usesPlace
        cases hd : hardOf dst with
        | none => rfl
        | some g =>
          have hne : rsp ≠ g := fun he => hsp (by rw [hd, he])
          simp [AddrMode.uses, AddrMode.ofBase, hne]
      rw [huses, Bool.or_false, hone he]
  | mem ro hk hp ha ih => simpa only [reads, ReadsPlace, Expr.regs] using ih
  | neg hk hx ih | inv hk hx ih | lnot hk hx ih | cast hk hx ih => simpa only [reads, ReadsPlace, Expr.regs] using ih
  | arith ha hb hx hy ihx ihy | compare op hk hx hy ihx ihy | logic op hkx hky hx hy ihx ihy =>
    obtain ⟨b, hb, hbx⟩ := ihx
    obtain ⟨b', hb', hby⟩ := ihy
    exact hbinary hb hb' hbx hby

theorem Dest.hardOf (h : Dest A μ m dst T) {g : HardReg} (hg : hardOf dst = some g) :
    g ≠ rsp ∧ Cell.reg g ∉ A.free μ := by
  cases h with
  | reg hk hgpr hsp hfree =>
    cases hg
    exact ⟨hsp, hfree⟩
  | mem => cases hg

/-- A destination is in danger only from the registers that live there. -/
theorem hazard_eq_ok (h : Plain A.frame e) (hd : Dest A μ m dst T) :
    ∃ b, hazard A.frame e dst = .ok b ∧ (b = true ↔ ReadsPlace A.frame dst e) := by
  obtain ⟨b, hb, hiff⟩ := reads_eq_ok h fun hg => (hd.hardOf hg).1 rfl
  have hfixed : isFixed dst = false := by
    unfold isFixed
    cases hg : hardOf dst with
    | none => rfl
    | some g =>
      have hfree := (hd.hardOf hg).2
      have hne : ∀ g' ∈ [rax, rcx, rdx], g ≠ g' := by
        rintro g' hg' rfl
        exact hfree (.inl hg')
      simp [hne rax (by simp), hne rcx (by simp), hne rdx (by simp)]
  refine ⟨b, ?_, hiff⟩
  unfold hazard
  rw [hb]
  cases b <;> simp [bind, Except.bind, hfixed, pure, Except.pure]

/-- The cells of a destination are among those of an operand that is the same place. -/
theorem Occupies.exists_cell (hd : Occupies m dst T) (h : samePlace p dst = true) : ∃ c ∈ T, c ∈ m.cells p := by
  cases hd with
  | @reg k g ro hk hg =>
    cases p with
    | reg q =>
      simp only [samePlace, Bool.and_eq_true, beq_iff_eq] at h
      exact ⟨_, rfl, g, h.1, rfl⟩
    | _ => cases h
  | @mem k ro a hk =>
    cases p with
    | memAt k' ro' a' =>
      simp only [samePlace, Bool.and_eq_true, beq_iff_eq] at h
      obtain ⟨rfl, hsize⟩ := h
      have h0 : 0 < k.size := by
        have := Kind.size_of_isScalar hk
        omega
      exact ⟨.byte (m.address a'), ⟨_, rfl, by simpa using h0⟩, .inr ⟨_, rfl, by simpa [hsize] using h0⟩⟩
    | _ => cases h

/-- No register lives in a temporary. -/
theorem samePlace_temp (hr : Placed A.frame r) (hp : A.frame.resolve r = .ok p) (hsp : m.regs rsp = A.sp)
    (hd : Occupies m dst T) (hT : T ⊆ A.free μ) : samePlace p dst = false := by
  by_contra h
  obtain ⟨c, hcT, hc⟩ := hd.exists_cell (by simpa using h)
  exact Set.disjoint_left.1 (hr.stable hp hsp) hc (hT hcT)

theorem Plain.placed (h : Plain f e) : ∀ r ∈ e.regs, r.kind.isScalar = true ∧ Placed f r := by
  induction h with
  | const => simp [Expr.regs]
  | reg hk hs hr =>
    intro r hr'
    cases List.mem_singleton.1 hr'
    exact ⟨hk, hr⟩
  | mem _ _ _ _ ih | neg _ _ ih | inv _ _ ih | lnot _ _ ih | cast _ _ ih => exact ih
  | arith _ _ _ _ ihx ihy | compare _ _ _ _ ihx ihy | logic _ _ _ _ _ ihx ihy =>
    intro r hr
    exact (List.mem_append.1 hr).elim (ihx r) (ihy r)

theorem hazard_temp (h : Plain A.frame e) (hsp : m.regs rsp = A.sp) {ν : Mark} (hd : Dest A ν m dst T) (hT : T ⊆ A.free μ) :
    hazard A.frame e dst = .ok false := by
  obtain ⟨b, hb, hiff⟩ := hazard_eq_ok h hd
  cases b with
  | false => exact hb
  | true =>
    obtain ⟨r, hr, p, hp, hsame⟩ := hiff.1 rfl
    rw [samePlace_temp (h.placed r hr).2 hp hsp hd.occupies hT] at hsame
    cases hsame

/-- The place that is taken in danger is a temporary, and it is safe. -/
theorem does_refuge {Q : List (Mark × Expr) → Mark → Machine → Prop} (h : Plain A.frame e) (hsp : m.regs rsp = A.sp)
    (hd : hazard A.frame e dst = .ok true)
    (hq : ∀ t ν T, μ ≤ ν → t.kind = .bool → T ⊆ A.free μ → (∀ m, m.regs rsp = A.sp → Dest A ν m t T) → Q [(μ, t)] ν m) :
    Does A (change fun f => refuge f e dst) μ m Q := by
  refine .of_eq fun {s chain s'} hs hg => ⟨(refuge_below hg.change).1.1, fun hpeak => ?_⟩
  have hchange := hg.change
  rw [refuge, hd] at hchange
  dsimp only at hchange
  split at hchange
  · cases hchange
  rename_i t s₁ ht
  rcases hrest : refuge A.frame e t s₁ with ⟨_ | rest, s₂⟩
  · rw [hrest] at hchange
    cases hchange
  rw [hrest] at hchange
  cases hchange
  obtain ⟨htk, T, hT, hdest⟩ := dest_temp rfl (.of_change ht) ((refuge_below hrest).1.2.2.1.trans hpeak)
  rw [refuge, hazard_temp h hsp (hdest m hsp) hT] at hrest
  cases hrest
  rw [hs] at hT ⊢
  exact hq t _ T (hs ▸ (temp_below ht).2.2.2) htk hT hdest

/-- Whether an operand is computed where it is already. -/
theorem isPlace_eq_ok {origin : Option Expr} (h : Plain f e) : ∃ b, isPlace f e dst origin = .ok b ∧
    (b = true → origin = some e ∨ ∃ r p, e = .reg r ∧ f.resolve r = .ok p ∧ samePlace p dst = true) ∧
    (b = false → origin ≠ some e) := by
  unfold isPlace
  split
  · rename_i ho
    exact ⟨true, rfl, fun _ => .inl ho, by rintro ⟨⟩⟩
  · rename_i ho
    cases h with
    | @reg r hk hs hr =>
      have hres : ∃ p, f.resolve r = .ok p := by
        cases hr with
        | reg g hmem he => exact ⟨_, he⟩
        | slot o hle he => exact ⟨_, he⟩
      obtain ⟨p, hp⟩ := hres
      refine ⟨samePlace p dst, by simp [hp, Except.map], fun hb => .inr ⟨r, p, rfl, hp, hb⟩, fun _ => ho⟩
    | _ => exact ⟨false, rfl, by rintro ⟨⟩, fun _ => ho⟩

end Hazards

end JitBackend.Amd64
