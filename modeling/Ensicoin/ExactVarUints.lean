import Ensicoin.VarUintCodes

/-!
Where reading a Var_uint is the inverse of writing it. The first byte is extracted with
skipws, so the codes of five control characters and of the space are not read back, and
white space in front of a code is consumed with it; a wider form than the shortest is
accepted for its value.
-/
namespace EnsicoinExactVarUints
open BigEndianWords EnsicoinRuntime EnsicoinNetworkBuffer EnsicoinNetworkable EnsicoinVarUintCodes

def ReadsBack (v : UInt64) (rest : Bytes) : Prop := ∀ heap,
  readVarUint.run ⟨⟨VarUint.byteRepr v ++ rest, false⟩, heap⟩ = .ok (v, ⟨⟨rest, false⟩, heap⟩)

/-- A value whose code is one byte of white space. -/
def Blank (v : UInt64) : Prop := v = 0x20 ∨ 0x09 ≤ v ∧ v ≤ 0x0d

/-- The least value that is written with this width behind its first byte. -/
def least : Nat → Nat
  | 2 => 253
  | 4 => 2 ^ 16
  | _ => 2 ^ 32

/-- The bytes start with a code, without white space, and not with a wider one than needed. -/
def Shortest : Bytes → Prop
  | [] => False
  | start :: data => isSpace start = false ∧
    ∀ width, (start, width) ∈ wideForms → least width ≤ ofBytes (data.take width)

theorem blank_iff (v : UInt64) : Blank v ↔ v.toNat = 32 ∨ 9 ≤ v.toNat ∧ v.toNat ≤ 13 := by
  rw [Blank, ← UInt64.toNat_inj, UInt64.le_iff_toNat_le, UInt64.le_iff_toNat_le]
  rfl

theorem space_iff (b : UInt8) : isSpace b = true ↔ b.toNat = 32 ∨ 9 ≤ b.toNat ∧ b.toNat ≤ 13 := by
  simp only [isSpace, Bool.or_eq_true, beq_iff_eq, Bool.and_eq_true, decide_eq_true_eq,
    ← UInt8.toNat_inj, UInt8.le_iff_toNat_le]
  rfl

theorem written_start (v : UInt64) : ∃ start data, VarUint.byteRepr v = start :: data ∧
    (isSpace start = true ↔ Blank v) ∧ (Blank v → data = []) := by
  rw [blank_iff, VarUint.byteRepr_eq]
  split
  · rename_i small
    have value : (UInt8.ofNat v.toNat).toNat = v.toNat := by
      rw [UInt8.toNat_ofNat']
      omega
    exact ⟨_, [], rfl, by rw [space_iff, value], fun _ => rfl⟩
  · rename_i large
    have wide : ∀ start data, isSpace start = false → ∃ start' data',
        start :: data = start' :: data' ∧
          (isSpace start' = true ↔ v.toNat = 32 ∨ 9 ≤ v.toNat ∧ v.toNat ≤ 13) ∧
          (v.toNat = 32 ∨ 9 ≤ v.toNat ∧ v.toNat ≤ 13 → data' = []) := by
      intro start data dark
      refine ⟨start, data, rfl, ?_, by omega⟩
      rw [dark]
      simp
      omega
    split
    · exact wide 0xfd _ (by decide)
    · split
      · exact wide 0xfe _ (by decide)
      · exact wide 0xff _ (by decide)

theorem reads_back_iff (v : UInt64) (rest : Bytes) : ReadsBack v rest ↔ ¬ Blank v := by
  obtain ⟨start, data, code, space, single⟩ := written_start v
  constructor
  · intro back blank
    have run := back (constantHeap 0)
    rw [code, single blank, List.singleton_append, blank_skipped (space.mpr blank)] at run
    -- the code that is read instead lies behind the space
    obtain ⟨_, spaces, code', split, _, raw, _⟩ := readVarUint_alive run rfl
    have length := congrArg List.length split
    have some : 0 < code'.length := by cases raw <;> simp
    simp only [List.length_append] at length
    omega
  · intro plain heap
    apply raw_code_read (written_code_raw v)
    intro b first
    rw [code] at first
    cases first
    cases dark : isSpace start with
    | false => rfl
    | true => exact absurd (space.mp dark) plain

theorem short_written {start : UInt8} (small : start < 0xfd) :
    VarUint.byteRepr start.toUInt64 = [start] := by
  have bound : start.toNat < 253 := UInt8.lt_iff_toNat_lt.mp small
  rw [VarUint.byteRepr_eq, UInt8.toNat_toUInt64, if_pos (by omega), UInt8.ofNat_toNat]

/-- A wide code is the one that is written when its value is not too small for it. -/
theorem wide_written_iff {start : UInt8} {data : Bytes} (form : (start, data.length) ∈ wideForms) :
    VarUint.byteRepr (UInt64.ofNat (ofBytes data)) = start :: data ↔
      least data.length ≤ ofBytes data := by
  obtain ⟨value, written⟩ := wide_value form
  have bound := ofBytes_lt data
  simp only [wideForms, List.mem_cons, Prod.mk.injEq, List.not_mem_nil, or_false] at form
  -- a form of another width would differ in its first byte or in its length
  have shorter : ∀ {small : Bytes}, small.length < data.length → ¬ small = data := by
    intro small less same
    rw [same] at less
    exact Nat.lt_irrefl _ less
  rw [VarUint.byteRepr_eq, value]
  rcases form with ⟨rfl, width⟩ | ⟨rfl, width⟩ | ⟨rfl, width⟩
  all_goals
    rw [width] at written bound ⊢
    simp only [least]
  · split
    · refine ⟨fun same => ?_, by omega⟩
      exact absurd (List.cons.inj same).2 (shorter (by simp [width]))
    · rw [if_pos (by omega), written]
      exact ⟨fun _ => by omega, fun _ => rfl⟩
  · split
    · refine ⟨fun same => ?_, by omega⟩
      exact absurd (List.cons.inj same).2 (shorter (by simp [width]))
    · split
      · refine ⟨fun same => ?_, by omega⟩
        exact absurd (List.cons.inj same).1 (by decide)
      · rw [if_pos (by omega), written]
        exact ⟨fun _ => by omega, fun _ => rfl⟩
  · split
    · refine ⟨fun same => ?_, by omega⟩
      exact absurd (List.cons.inj same).2 (shorter (by simp [width]))
    · split
      · refine ⟨fun same => ?_, by omega⟩
        exact absurd (List.cons.inj same).1 (by decide)
      · split
        · refine ⟨fun same => ?_, by omega⟩
          exact absurd (List.cons.inj same).1 (by decide)
        · rw [written]
          exact ⟨fun _ => by omega, fun _ => rfl⟩

theorem shortest_iff {code : Bytes} {v : UInt64} (raw : RawVarUint code v)
    (dark : ∀ b ∈ code.head?, isSpace b = false) (rest : Bytes) :
    VarUint.byteRepr v = code ↔ Shortest (code ++ rest) := by
  cases raw with
  | short start small =>
    refine ⟨fun _ => ⟨dark start rfl, ?_⟩, fun _ => short_written small⟩
    intro width form
    exact absurd small (UInt8.not_lt.mpr (wide_start form).1)
  | wide start data form =>
    have front : (data ++ rest).take data.length = data := List.take_left
    rw [wide_written_iff form]
    constructor
    · intro large
      refine ⟨dark start rfl, ?_⟩
      intro width other
      rw [wide_width other form]
      exact (congrArg ofBytes front).ge.trans' large
    · intro shortest
      exact (shortest.2 data.length form).trans (congrArg ofBytes front).le

/-- The bytes taken off a stream are those that are written for the value exactly when
    they are not preceded by white space and no wider than needed. -/
theorem consumed_iff {bytes : Bytes} {heap : Heap} {v : UInt64} {t : ReadState}
    (run : readVarUint.run ⟨⟨bytes, false⟩, heap⟩ = .ok (v, t)) (alive : t.buffer.fail = false) :
    bytes = VarUint.byteRepr v ++ t.buffer.unread ↔ Shortest bytes := by
  obtain ⟨_, spaces, code, split, blank, raw, dark⟩ := readVarUint_alive run alive
  simp only at split
  cases spaces with
  | nil =>
    rw [List.nil_append] at split
    rw [split, List.append_cancel_right_eq, eq_comm, shortest_iff raw dark]
  | cons space spaces =>
    have white := blank space List.mem_cons_self
    constructor
    · intro same
      obtain ⟨start, data, written, isBlank, single⟩ := written_start v
      -- the writer's own code would be the white space, and a code needs more bytes
      have length := congrArg List.length (same.symm.trans split)
      rw [written] at same length
      rw [split] at same
      obtain ⟨rfl, _⟩ := List.cons.inj same
      rw [single (isBlank.mp white)] at length
      have some : 0 < code.length := by cases raw <;> simp
      simp only [List.length_append, List.length_cons, List.length_nil] at length
      omega
    · rw [split]
      rintro ⟨dark, _⟩
      exact absurd (dark.symm.trans white) (by decide)

/-- The value 32 is written as a space, and the two-byte form is accepted for the value 1. -/
theorem space_not_read_back : ¬ ReadsBack 0x20 [0x01] ∧
    ∃ t, readVarUint.run ⟨⟨[0xfd, 0x00, 0x01], false⟩, constantHeap 0⟩ = .ok (1, t) ∧
      t.buffer.fail = false ∧ [0xfd, 0x00, 0x01] ≠ VarUint.byteRepr 1 ++ t.buffer.unread := by
  constructor
  · rw [reads_back_iff]
    exact fun plain => plain (Or.inl rfl)
  · have raw : RawVarUint [0xfd, 0x00, 0x01] 1 := .wide 0xfd [0x00, 0x01] (by decide)
    exact ⟨_, raw_code_read raw (by simp [isSpace]) [] (constantHeap 0), rfl, by decide⟩

theorem exact_iff (v : UInt64) (rest bytes : Bytes) : (ReadsBack v rest ↔ ¬ Blank v) ∧
    ∀ heap w t, readVarUint.run ⟨⟨bytes, false⟩, heap⟩ = .ok (w, t) → t.buffer.fail = false →
      (bytes = VarUint.byteRepr w ++ t.buffer.unread ↔ Shortest bytes) :=
  ⟨reads_back_iff v rest, fun _ _ _ run alive => consumed_iff run alive⟩

theorem wide_code_exact : ReadsBack 256 [0x20] ∧ ∃ t,
    readVarUint.run ⟨⟨[0xfd, 0x01, 0x00, 0x20], false⟩, constantHeap 0⟩ = .ok (256, t) ∧
      [0xfd, 0x01, 0x00, 0x20] = VarUint.byteRepr 256 ++ t.buffer.unread := by
  have raw : RawVarUint [0xfd, 0x01, 0x00] 256 := .wide 0xfd [0x01, 0x00] (by decide)
  have run := raw_code_read raw (by simp [isSpace]) [0x20] (constantHeap 0)
  have exact := exact_iff 256 [0x20] [0xfd, 0x01, 0x00, 0x20]
  refine ⟨exact.1.mpr (by rw [blank_iff]; decide), _, run, ?_⟩
  apply (exact.2 _ _ _ run rfl).mpr
  exact ⟨by decide, by simp [wideForms, least, ofBytes]⟩

end EnsicoinExactVarUints
