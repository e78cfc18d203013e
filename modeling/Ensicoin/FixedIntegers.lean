import Ensicoin.Networkable

/-!
Integers of fixed width in a row. Each is written as a padded hexadecimal text and read by
shifts of its bytes; whatever the mix, the readers stay in step with the writers, and where
the bytes are cut they give zeros from there on.
-/
namespace EnsicoinFixedIntegers
open BigEndianWords EnsicoinRuntime EnsicoinNetworkBuffer EnsicoinNetworkable

inductive Width where
  | uint16
  | uint32
  | uint64
  deriving DecidableEq, Repr

inductive Fixed where
  | uint16 (value : UInt16)
  | uint32 (value : UInt32)
  | uint64 (value : UInt64)
  deriving DecidableEq, Repr

def Fixed.width : Fixed → Width
  | .uint16 _ => .uint16
  | .uint32 _ => .uint32
  | .uint64 _ => .uint64

def Fixed.byteRepr : Fixed → Bytes
  | .uint16 value => Uint16.byteRepr value
  | .uint32 value => Uint32.byteRepr value
  | .uint64 value => Uint64.byteRepr value

def Width.size : Width → Nat
  | .uint16 => 2
  | .uint32 => 4
  | .uint64 => 8

def Width.zero : Width → Fixed
  | .uint16 => .uint16 0
  | .uint32 => .uint32 0
  | .uint64 => .uint64 0

def Width.read : Width → Decoder Fixed
  | .uint16 => Fixed.uint16 <$> readUint16
  | .uint32 => Fixed.uint32 <$> readUint32
  | .uint64 => Fixed.uint64 <$> readUint64

/-- What a reader makes of the number its bytes stand for. -/
def Width.convert : Width → Nat → Fixed
  | .uint16, value => .uint16 (UInt16.ofNat value)
  | .uint32, value => .uint32 (UInt32.ofNat value)
  | .uint64, value => .uint64 (UInt64.ofNat value)

def readMix : List Width → Decoder (List Fixed)
  | [] => return []
  | width :: widths => do
    let value ← width.read
    let later ← readMix widths
    return value :: later

def written (values : List Fixed) : Bytes := values.flatMap Fixed.byteRepr

/-- What is read where the bytes end: the values whose bytes are complete, then zeros. -/
structure ReadBack (values : List Fixed) (part : Bytes) (back : List Fixed) : Prop where
  length : back.length = values.length
  complete : ∀ i v, values[i]? = some v → written (values.take (i + 1)) <+: part →
    back[i]? = some v
  later : ∀ i v, values[i]? = some v → ¬ written (values.take (i + 1)) <+: part →
    back[i]? = some v.width.zero

theorem convert_zero (width : Width) : width.convert 0 = width.zero := by
  cases width <;> rfl

theorem convert_read (width : Width) {value : Nat} {s t : ReadState}
    (run : (readBigEndian width.size).run s = .ok (value, t)) :
    width.read.run s = .ok (width.convert value, t) := by
  cases width with
  | uint16 => exact run_map_ok.mpr ⟨_, run_map_ok.mpr ⟨_, run, rfl⟩, rfl⟩
  | uint32 => exact run_map_ok.mpr ⟨_, run_map_ok.mpr ⟨_, run, rfl⟩, rfl⟩
  | uint64 => exact run_map_ok.mpr ⟨_, run_map_ok.mpr ⟨_, run, rfl⟩, rfl⟩

section Shifts

/-- An unsigned char in an expression is promoted to int. -/
def promoted (b : UInt8) : Int32 := b.toUInt32.toInt32

def shiftedUint16 (b₀ b₁ : UInt8) : UInt16 :=
  (promoted b₀ <<< 8 ||| promoted b₁).toUInt32.toUInt16

def shiftedUint32 (b₀ b₁ b₂ b₃ : UInt8) : UInt32 :=
  (promoted b₀ <<< 24 ||| promoted b₁ <<< 16 ||| promoted b₂ <<< 8 ||| promoted b₃).toUInt32

def shiftedUint64 (binaryRepr : Bytes) : UInt64 :=
  (List.range 8).foldl (fun value i =>
    value ||| (binaryRepr.getD i 0).toUInt64 <<< UInt64.ofNat (8 * (7 - i))) 0

def Width.shifted : Width → Bytes → Fixed
  | .uint16, [b₀, b₁] => .uint16 (shiftedUint16 b₀ b₁)
  | .uint32, [b₀, b₁, b₂, b₃] => .uint32 (shiftedUint32 b₀ b₁ b₂ b₃)
  | .uint64, binaryRepr => .uint64 (shiftedUint64 binaryRepr)
  | width, _ => width.zero

theorem byte_shift_lt (b : UInt8) {amount width : Nat} (inside : amount + 8 ≤ width) :
    b.toNat <<< amount < 2 ^ width := by
  have bound := b.toNat_lt
  rw [Nat.shiftLeft_eq]
  calc b.toNat * 2 ^ amount < 2 ^ 8 * 2 ^ amount :=
        Nat.mul_lt_mul_of_pos_right bound (Nat.two_pow_pos amount)
    _ = 2 ^ (amount + 8) := by rw [← pow_add, Nat.add_comm]
    _ ≤ 2 ^ width := Nat.pow_le_pow_right (by decide) inside

/-- The sign bit of an int is a value bit of the uint32_t it is converted to. -/
theorem promoted_shift (b : UInt8) (amount : Nat) (given : amount ∈ [8, 16, 24]) :
    (promoted b <<< Int32.ofNat amount).toUInt32.toNat = b.toNat <<< amount := by
  simp only [List.mem_cons, List.not_mem_nil, or_false] at given
  have unsigned : (promoted b <<< Int32.ofNat amount).toUInt32 =
      b.toUInt32 <<< UInt32.ofNat amount := by
    rcases given with rfl | rfl | rfl <;> rfl
  have small : amount % 2 ^ 32 % 32 = amount := by omega
  rw [unsigned, UInt32.toNat_shiftLeft, UInt8.toNat_toUInt32, UInt32.toNat_ofNat', small,
    Nat.mod_eq_of_lt (byte_shift_lt b (by omega))]

theorem promoted_toNat (b : UInt8) : (promoted b).toUInt32.toNat = b.toNat := by
  simp [promoted]

theorem shiftedUint16_eq (b₀ b₁ : UInt8) :
    shiftedUint16 b₀ b₁ = UInt16.ofNat (ofBytes [b₀, b₁]) := by
  have value : ofBytes [b₀, b₁] = b₀.toNat <<< 8 ||| b₁.toNat := by simp [ofBytes]
  have high := promoted_shift b₀ 8 (by decide)
  rw [value, ← high, ← promoted_toNat b₁, ← UInt32.toNat_or]
  rfl

theorem shiftedUint32_eq (b₀ b₁ b₂ b₃ : UInt8) :
    shiftedUint32 b₀ b₁ b₂ b₃ = UInt32.ofNat (ofBytes [b₀, b₁, b₂, b₃]) := by
  have value : ofBytes [b₀, b₁, b₂, b₃] =
      b₀.toNat <<< 24 ||| b₁.toNat <<< 16 ||| b₂.toNat <<< 8 ||| b₃.toNat := by
    simp [ofBytes, Nat.shiftLeft_or_distrib, ← Nat.shiftLeft_add]
  have first := promoted_shift b₀ 24 (by decide)
  have second := promoted_shift b₁ 16 (by decide)
  have third := promoted_shift b₂ 8 (by decide)
  rw [value, ← first, ← second, ← third, ← promoted_toNat b₃, ← UInt32.toNat_or,
    ← UInt32.toNat_or, ← UInt32.toNat_or, UInt32.ofNat_toNat]
  rfl

theorem turn_toNat (value : UInt64) (b : UInt8) {i : Nat} :
    (value ||| b.toUInt64 <<< UInt64.ofNat (8 * (7 - i))).toNat =
      value.toNat ||| b.toNat <<< (8 * (7 - i)) := by
  have small : 8 * (7 - i) % 2 ^ 64 % 64 = 8 * (7 - i) := by omega
  rw [UInt64.toNat_or, UInt64.toNat_shiftLeft, UInt8.toNat_toUInt64, UInt64.toNat_ofNat', small,
    Nat.mod_eq_of_lt (byte_shift_lt b (by omega))]

theorem shiftedUint64_eq {binaryRepr : Bytes} (whole : binaryRepr.length = 8) :
    shiftedUint64 binaryRepr = UInt64.ofNat (ofBytes binaryRepr) := by
  have range : List.range 8 = [0, 1, 2, 3, 4, 5, 6, 7] := rfl
  match binaryRepr, whole with
  | [b₀, b₁, b₂, b₃, b₄, b₅, b₆, b₇], _ =>
    have value : (shiftedUint64 [b₀, b₁, b₂, b₃, b₄, b₅, b₆, b₇]).toNat =
        ofBytes [b₀, b₁, b₂, b₃, b₄, b₅, b₆, b₇] := by
      simp only [shiftedUint64, range, List.foldl_cons, List.foldl_nil, turn_toNat]
      simp [ofBytes, Nat.shiftLeft_or_distrib, ← Nat.shiftLeft_add]
    rw [← value, UInt64.ofNat_toNat]

theorem shifted_eq (width : Width) {binaryRepr : Bytes} (whole : binaryRepr.length = width.size) :
    width.shifted binaryRepr = width.convert (ofBytes binaryRepr) := by
  cases width with
  | uint16 =>
    match binaryRepr, whole with
    | [b₀, b₁], _ => exact congrArg Fixed.uint16 (shiftedUint16_eq b₀ b₁)
  | uint32 =>
    match binaryRepr, whole with
    | [b₀, b₁, b₂, b₃], _ => exact congrArg Fixed.uint32 (shiftedUint32_eq b₀ b₁ b₂ b₃)
  | uint64 => exact congrArg Fixed.uint64 (shiftedUint64_eq whole)

/-- The readers compute the shifts and ors of the source. -/
theorem read_shifts (width : Width) (s : ReadState) : width.read.run s =
    .ok (if (s.buffer.read width.size).1.length ≠ width.size then width.zero
      else width.shifted (s.buffer.read width.size).1,
      { s with buffer := (s.buffer.read width.size).2 }) := by
  have run := readBigEndian_run width.size s
  by_cases whole : (s.buffer.read width.size).1.length = width.size
  · rw [if_neg (not_not.mpr whole)] at run ⊢
    rw [shifted_eq width whole]
    exact convert_read width run
  · rw [if_pos whole] at run ⊢
    rw [← convert_zero]
    exact convert_read width run

end Shifts

theorem byteRepr_size (v : Fixed) : v.byteRepr.length = v.width.size := by
  cases v with
  | uint16 value => exact Uint16.byteRepr_length value
  | uint32 value => exact Uint32.byteRepr_length value
  | uint64 value => exact Uint64.byteRepr_length value

theorem shifted_byteRepr (v : Fixed) : v.width.shifted v.byteRepr = v := by
  rw [shifted_eq v.width (byteRepr_size v)]
  cases v with
  | uint16 value =>
    exact congrArg Fixed.uint16 (by rw [Fixed.byteRepr, Uint16.byteRepr_eq,
      ofBytes_toBytes 2 _ value.toNat_lt, UInt16.ofNat_toNat])
  | uint32 value =>
    exact congrArg Fixed.uint32 (by rw [Fixed.byteRepr, Uint32.byteRepr_eq,
      ofBytes_toBytes 4 _ value.toNat_lt, UInt32.ofNat_toNat])
  | uint64 value =>
    exact congrArg Fixed.uint64 (by rw [Fixed.byteRepr, Uint64.byteRepr_eq,
      ofBytes_toBytes 8 _ value.toNat_lt, UInt64.ofNat_toNat])

theorem value_read (v : Fixed) (rest : Bytes) (heap : Heap) :
    v.width.read.run ⟨⟨v.byteRepr ++ rest, false⟩, heap⟩ = .ok (v, ⟨⟨rest, false⟩, heap⟩) := by
  have taken := stream_read_append v.byteRepr rest
  rw [byteRepr_size] at taken
  rw [read_shifts]
  simp only [taken, byteRepr_size, ne_eq, not_true_eq_false, ↓reduceIte, shifted_byteRepr]

theorem mix_read (values : List Fixed) (rest : Bytes) (heap : Heap) :
    (readMix (values.map Fixed.width)).run ⟨⟨written values ++ rest, false⟩, heap⟩ =
      .ok (values, ⟨⟨rest, false⟩, heap⟩) := by
  induction values with
  | nil => rfl
  | cons v values ih =>
    rw [written, List.flatMap_cons, List.append_assoc, ← written, List.map_cons]
    exact run_bind_ok.mpr ⟨v, _, value_read v _ heap, run_bind_ok.mpr ⟨values, _, ih, rfl⟩⟩

theorem short_taken {size : Nat} (positive : 0 < size) (buffer : StringStream)
    (short : buffer.fail = true ∨ buffer.unread.length < size) : ∃ unread,
    (buffer.read size).1.length ≠ size ∧ (buffer.read size).2 = ⟨unread, true⟩ := by
  obtain ⟨unread, fail⟩ := buffer
  cases fail with
  | true => exact ⟨unread, by simp [StringStream.read, positive.ne]⟩
  | false =>
    have scarce : unread.length < size := short.resolve_left Bool.false_ne_true
    exact ⟨[], by simp [StringStream.read, Nat.not_le_of_lt scarce, scarce.ne]⟩

/-- A read that gets fewer bytes than it asks for gives zero, and the stream has failed. -/
theorem short_read (width : Width) (buffer : StringStream) (heap : Heap)
    (short : buffer.fail = true ∨ buffer.unread.length < width.size) : ∃ unread,
    width.read.run ⟨buffer, heap⟩ = .ok (width.zero, ⟨⟨unread, true⟩, heap⟩) := by
  have positive : 0 < width.size := by cases width <;> decide
  obtain ⟨unread, few, failed⟩ := short_taken positive buffer short
  refine ⟨unread, ?_⟩
  rw [read_shifts, if_pos few, failed]

theorem failed_reads (widths : List Width) (unread : Bytes) (heap : Heap) : ∃ left,
    (readMix widths).run ⟨⟨unread, true⟩, heap⟩ =
      .ok (widths.map Width.zero, ⟨⟨left, true⟩, heap⟩) := by
  induction widths generalizing unread with
  | nil => exact ⟨unread, rfl⟩
  | cons width widths ih =>
    obtain ⟨mid, first⟩ := short_read width ⟨unread, true⟩ heap (Or.inl rfl)
    obtain ⟨left, later⟩ := ih mid
    exact ⟨left, run_bind_ok.mpr ⟨_, _, first, run_bind_ok.mpr ⟨_, _, later, rfl⟩⟩⟩

theorem written_cons (v : Fixed) (values : List Fixed) :
    written (v :: values) = v.byteRepr ++ written values := List.flatMap_cons

theorem whole_first {v : Fixed} {values : List Fixed} {tail : Bytes} {back : List Fixed}
    (same : ReadBack values tail back) :
    ReadBack (v :: values) (v.byteRepr ++ tail) (v :: back) where
  length := by rw [List.length_cons, List.length_cons, same.length]
  complete := by
    intro i w there whole
    cases i with
    | zero => exact there
    | succ i =>
      rw [List.take_succ_cons, written_cons, List.prefix_append_right_inj] at whole
      exact same.complete i w there whole
  later := by
    intro i w there cut
    rw [List.take_succ_cons, written_cons, List.prefix_append_right_inj] at cut
    cases i with
    | zero => exact absurd List.nil_prefix cut
    | succ i => exact same.later i w there cut

theorem cut_first {v : Fixed} {values : List Fixed} {part : Bytes}
    (cut : ¬ v.byteRepr <+: part) :
    ReadBack (v :: values) part (((v :: values).map Fixed.width).map Width.zero) where
  length := by rw [List.length_map, List.length_map]
  complete := by
    intro i w _ whole
    rw [List.take_succ_cons, written_cons] at whole
    exact absurd ((List.prefix_append _ _).trans whole) cut
  later := by
    intro i w there _
    rw [List.getElem?_map, List.getElem?_map, there]
    rfl

/-- By induction on the values: the first one is complete, or nothing is from there on. -/
theorem cut_read (values : List Fixed) {part : Bytes} (pre : part <+: written values)
    (heap : Heap) : ∃ back t,
    (readMix (values.map Fixed.width)).run ⟨⟨part, false⟩, heap⟩ = .ok (back, t) ∧
      ReadBack values part back ∧ (part ≠ written values → t.buffer.fail = true) := by
  induction values generalizing part with
  | nil =>
    obtain rfl := List.prefix_nil.mp pre
    exact ⟨[], _, rfl, ⟨rfl, nofun, nofun⟩, fun proper => absurd rfl proper⟩
  | cons v values ih =>
    rw [written_cons] at pre ⊢
    by_cases whole : v.byteRepr <+: part
    · obtain ⟨tail, rfl⟩ := whole
      obtain ⟨back, t, run, same, fails⟩ := ih ((List.prefix_append_right_inj _).mp pre)
      refine ⟨v :: back, t, run_bind_ok.mpr ⟨v, _, value_read v tail heap,
        run_bind_ok.mpr ⟨back, t, run, rfl⟩⟩, whole_first same, fun proper => fails ?_⟩
      intro all
      exact proper (congrArg (v.byteRepr ++ ·) all)
    · have short : part.length < v.width.size := by
        by_contra long
        rw [← byteRepr_size] at long
        exact whole (List.prefix_of_prefix_length_le (List.prefix_append _ _) pre (by omega))
      obtain ⟨unread, first⟩ := short_read v.width ⟨part, false⟩ heap (Or.inr short)
      obtain ⟨left, later⟩ := failed_reads (values.map Fixed.width) unread heap
      exact ⟨_, _, run_bind_ok.mpr ⟨_, _, first, run_bind_ok.mpr ⟨_, _, later, rfl⟩⟩,
        cut_first whole, fun _ => rfl⟩

theorem integers_in_step (values : List Fixed) :
    (∀ rest heap, (readMix (values.map Fixed.width)).run ⟨⟨written values ++ rest, false⟩, heap⟩ =
      .ok (values, ⟨⟨rest, false⟩, heap⟩)) ∧
    ∀ part, part <+: written values → part ≠ written values → ∀ heap, ∃ back t,
      (readMix (values.map Fixed.width)).run ⟨⟨part, false⟩, heap⟩ = .ok (back, t) ∧
        ReadBack values part back ∧
        ∀ more, ∃ t', (readMix more).run t = .ok (more.map Width.zero, t') := by
  refine ⟨mix_read values, ?_⟩
  intro part pre proper heap
  obtain ⟨back, ⟨⟨unread, fail⟩, later⟩, run, same, fails⟩ := cut_read values pre heap
  obtain rfl : fail = true := fails proper
  refine ⟨back, _, run, same, fun more => ?_⟩
  obtain ⟨left, zeros⟩ := failed_reads more unread later
  exact ⟨_, zeros⟩

end EnsicoinFixedIntegers
