import Mathlib
import JitBackend.Proofs.Slots
import JitBackend.Proofs.Amd64.Assignment
import JitBackend.Proofs.Amd64.Failures

/-!
# Coverage of an allocation

If a function uses each soft register at one kind, then its allocation has a place for exactly the registers in use, and
those on the stack lie apart within the frame (`Allocation.Covers`). Selection asks for no other places, so it never meets
a register without one (`allocate_covers`).
-/

namespace JitBackend

/-- The register is a parameter or occurs in the code. -/
def Flat.Uses (f : Flat) (r : Reg) : Prop := r ∈ f.func.params ∨ ∃ e ∈ f.code.toList, r ∈ e.regs

/-- One entry for each soft register that `f` uses. Entries on the stack lie at multiples of eight bytes above `sp`,
within the frame and apart from each other as far as the kinds of the registers reach. -/
structure Allocation.Covers (a : Allocation) (sp : HardReg) (f : Flat) : Prop where
  nodup : a.ids.Nodup
  mem_ids : ∀ id, id ∈ a.ids ↔ ∃ r, f.Uses r ∧ r.id = .soft id
  slot : ∀ id base o, a.get? id = some (.stack base o) → base = sp ∧ 8 ∣ o
  within : ∀ r id base o, f.Uses r → r.id = .soft id → a.get? id = some (.stack base o) → 0 ≤ o ∧ o + r.kind.size ≤ a.frame
  apart : ∀ r r' id id' base base' o o', f.Uses r → f.Uses r' → r.id = .soft id → r'.id = .soft id' → id ≠ id' →
    a.get? id = some (.stack base o) → a.get? id' = some (.stack base' o') → o + r.kind.size ≤ o' ∨ o' + r'.kind.size ≤ o
  frame_dvd : 16 ∣ a.frame

namespace Flat

variable {f : Flat} {r : Reg} {id : Nat}

theorem uses_iff : f.Uses r ↔ ∃ p, (r, p) ∈ f.touches := by
  simp only [Uses, touches, List.mem_append, List.mem_map, List.mem_flatMap, Prod.mk.injEq, exists_or]
  refine or_congr ⟨fun h => ⟨0, r, h, rfl, rfl⟩, ?_⟩ ⟨?_, ?_⟩
  · rintro ⟨_, _, h, rfl, -⟩
    exact h
  · rintro ⟨e, he, hr⟩
    obtain ⟨i, hi⟩ := List.mem_iff_getElem?.1 he
    exact ⟨i + 1, (e, i + 1), mem_positions.2 ⟨by omega, by simpa using hi⟩, r, hr, rfl, rfl⟩
  · rintro ⟨p, ep, hep, _, hr, rfl, -⟩
    exact ⟨ep.1, List.fst_mem_of_mem_zipIdx hep, hr⟩

theorem mem_intervals_iff : id ∈ f.intervals.map (·.id) ↔ ∃ r, f.Uses r ∧ r.id = .soft id := by
  constructor
  · intro h
    obtain ⟨iv, hiv, rfl⟩ := List.mem_map.1 h
    obtain ⟨t, ht, hid, -⟩ := f.noted_intervals.source iv hiv
    exact ⟨t.1, uses_iff.2 ⟨t.2, ht⟩, hid⟩
  · rintro ⟨r, hr, hid⟩
    obtain ⟨p, hp⟩ := uses_iff.1 hr
    obtain ⟨iv, hiv, rfl, -⟩ := f.noted_intervals.spans _ hp id hid
    exact List.mem_map.2 ⟨iv, hiv, rfl⟩

/-- The interval of a register has its kind. -/
theorem OneKind.interval (h : f.OneKind) (hr : f.Uses r) (hid : r.id = .soft id) :
    ∃ iv ∈ f.intervals, iv.id = id ∧ iv.kind = r.kind := by
  obtain ⟨p, hp⟩ := uses_iff.1 hr
  obtain ⟨iv, hiv, rfl, -⟩ := f.noted_intervals.spans _ hp id hid
  obtain ⟨t, ht, hsoft, hkind⟩ := f.noted_intervals.source iv hiv
  refine ⟨iv, hiv, rfl, hkind.symm.trans ?_⟩
  exact h t ht (r, p) hp (by rw [hsoft]; rfl) (hsoft.trans hid.symm)

end Flat

namespace LinearScan

variable {scan : LinearScan} {f : Flat} {a : Allocation}

theorem Filed.covers (h : Filed scan f.intervals a) (hone : f.OneKind) (hframe : 16 ∣ a.frame) :
    a.Covers scan.stackPointer f := by
  have hslot : ∀ iv ∈ f.intervals, ∀ base o, a.get? iv.id = some (.stack base o) →
      base = scan.stackPointer ∧ 8 ∣ o ∧ 0 ≤ o ∧ o + slotSize iv.kind ≤ a.frame := by
    intro iv hiv base o hget
    obtain ⟨n, hn, hdvd, hle⟩ := h.slots iv hiv _ hget rfl
    cases hn
    exact ⟨rfl, by exact_mod_cast hdvd, by omega, by exact_mod_cast hle⟩
  refine ⟨h.ordered.nodup, fun id => (h.ids id).trans Flat.mem_intervals_iff, ?_, ?_, ?_, hframe⟩
  · intro id base o hget
    obtain ⟨iv, hiv, rfl⟩ := List.mem_map.1 ((h.ids id).1 (Allocation.mem_ids_of_get? hget))
    obtain ⟨hbase, hdvd, -⟩ := hslot iv hiv base o hget
    exact ⟨hbase, hdvd⟩
  · intro r id base o hr hid hget
    obtain ⟨iv, hiv, rfl, hkind⟩ := hone.interval hr hid
    obtain ⟨-, -, hpos, hle⟩ := hslot iv hiv base o hget
    have hsize := size_le_slotSize iv.kind
    rw [hkind] at hle hsize
    exact ⟨hpos, by omega⟩
  · intro r r' id id' base base' o o' hr hr' hid hid' hne hget hget'
    obtain ⟨iv, hiv, rfl, hkind⟩ := hone.interval hr hid
    obtain ⟨jv, hjv, rfl, hkind'⟩ := hone.interval hr' hid'
    have hapart : o + slotSize iv.kind ≤ o' ∨ o' + slotSize jv.kind ≤ o := h.apart iv hiv jv hjv hne _ _ hget hget' rfl rfl
    have hsize := size_le_slotSize iv.kind
    have hsize' := size_le_slotSize jv.kind
    rw [← hkind, ← hkind']
    omega

/-- An allocation covers the function that it is for, and lowering with it meets no register without a place. -/
theorem allocate_covers (scan : LinearScan) (f : Flat) (hone : f.OneKind) (log : Log) :
    (scan.allocate f log).1.Covers scan.stackPointer f ∧
    ∀ (registry : Registry), registry.get .amd64 = .ok Amd64.target → ∀ (width : Width) (log' : Log) (id : Nat),
      (f.lower registry width .amd64 (scan.allocate f log).1 log').1 ≠ .error (.unallocatedRegister id) := by
  have hfiled := allocate_filed scan f log
  refine ⟨hfiled.covers hone (dvd_roundUp _ 16), fun registry hreg width log' id herr => ?_⟩
  have hhomed : ∀ e ∈ f.code.toList,
      Amd64.Homed ⟨Amd64.regFile, (scan.allocate f log).1, f.makesCalls⟩ (fun _ => False) e := by
    intro e he r hr id hid hnone
    have hmem := (hfiled.ids id).2 (Flat.mem_intervals_iff.2 ⟨r, .inr ⟨e, he, hr⟩, hid⟩)
    obtain ⟨loc, hloc⟩ := hfiled.ordered.exists_get? hmem
    cases hnone.symm.trans hloc
  exact (Amd64.lower_avoids hreg hhomed width log' _ herr).missing id rfl

/-- A parameter that is read at the end, and a value of sixteen bytes that is written between. -/
def widePair : Flat where
  func := Func.empty "pair" ⟨[.int64, .complex128], []⟩
  code :=
    let s := fun i k => Expr.reg (Func.softReg i k)
    #[.binary .assign .complex128 (s 1 .complex128) (s 1 .complex128),
      .binary .assign .int64 (s 2 .int64) (s 0 .int64), .ret []]

theorem allocate_covers_widePair :
    let scan : LinearScan := ⟨[], [], ⟨.amd64, 4⟩⟩
    widePair.OneKind ∧ (scan.allocate widePair #[]).1 = ⟨[(256, .stack ⟨.amd64, 4⟩ 0), (257, .stack ⟨.amd64, 4⟩ 8),
      (258, .stack ⟨.amd64, 4⟩ 24)], 32⟩ ∧ (scan.allocate widePair #[]).1.Covers ⟨.amd64, 4⟩ widePair ∧
    ∀ id, (widePair.lower ⟨[Amd64.target]⟩ .w64 .amd64 (scan.allocate widePair #[]).1 #[]).1 ≠
      .error (.unallocatedRegister id) := by
  intro scan
  have hone : widePair.OneKind := .of_all (by cbv)
  have halloc : (scan.allocate widePair #[]).1 = ⟨[(256, .stack ⟨.amd64, 4⟩ 0), (257, .stack ⟨.amd64, 4⟩ 8),
    (258, .stack ⟨.amd64, 4⟩ 24)], 32⟩ := by cbv
  obtain ⟨hcovers, hlower⟩ := allocate_covers scan widePair hone #[]
  exact ⟨hone, halloc, hcovers, hlower _ rfl .w64 #[]⟩

end LinearScan

end JitBackend
