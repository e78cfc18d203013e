import Ensicoin.Networkable
import Ensicoin.Library.PrefixCodes

/-!
The codes of a Var_uint. The reader takes more codes than the writer gives: any
width will do, and white space in front of a code is skipped. The marks counted
here are zero bytes, of which the written code never has more than the read one.
-/
namespace EnsicoinVarUintCodes
open BigEndianWords PrefixCodes EnsicoinRuntime EnsicoinNetworkBuffer EnsicoinNetworkable

abbrev zeros (bytes : Bytes) : Nat := bytes.count 0

/-- The first bytes that announce a wider form, with its width. -/
def wideForms : List (UInt8 × Nat) := [(0xfd, 2), (0xfe, 4), (0xff, 8)]

inductive RawVarUint : Bytes → UInt64 → Prop
  | short (start : UInt8) (small : start < 0xfd) : RawVarUint [start] start.toUInt64
  | wide (start : UInt8) (data : Bytes) (form : (start, data.length) ∈ wideForms) :
    RawVarUint (start :: data) (UInt64.ofNat (ofBytes data))

theorem wide_start {start : UInt8} {width : Nat} (form : (start, width) ∈ wideForms) :
    0xfd ≤ start ∧ start ≠ 0 ∧ width ≤ 8 := by
  simp only [wideForms, List.mem_cons, Prod.mk.injEq, List.not_mem_nil, or_false] at form
  rcases form with ⟨rfl, rfl⟩ | ⟨rfl, rfl⟩ | ⟨rfl, rfl⟩ <;> decide

theorem wide_width {start : UInt8} {width other : Nat} (form : (start, width) ∈ wideForms)
    (also : (start, other) ∈ wideForms) : width = other := by
  simp only [wideForms, List.mem_cons, Prod.mk.injEq, List.not_mem_nil, or_false] at form also
  rcases form with ⟨rfl, rfl⟩ | ⟨rfl, rfl⟩ | ⟨rfl, rfl⟩ <;> simpa [eq_comm] using also

theorem raw_codes_decipher : Deciphers (fun code => ∃ v, RawVarUint code v) id := by
  rintro code code' ⟨v, raw⟩ ⟨w, raw'⟩ s t same
  simp only [id] at same
  cases raw with
  | short start small =>
    cases raw' with
    | short start' small' => simpa using same
    | wide start' data' form' =>
      simp only [List.cons_append, List.nil_append, List.cons.injEq] at same
      obtain ⟨rfl, _⟩ := same
      exact absurd small (UInt8.not_lt.mpr (wide_start form').1)
  | wide start data form =>
    cases raw' with
    | short start' small' =>
      simp only [List.cons_append, List.nil_append, List.cons.injEq] at same
      obtain ⟨rfl, _⟩ := same
      exact absurd small' (UInt8.not_lt.mpr (wide_start form).1)
    | wide start' data' form' =>
      simp only [List.cons_append, List.cons.injEq] at same
      obtain ⟨rfl, rest⟩ := same
      obtain ⟨front, back⟩ := List.append_inj rest (wide_width form form')
      exact ⟨by rw [front], back⟩

theorem raw_value_unique {code : Bytes} {v w : UInt64} (first : RawVarUint code v)
    (second : RawVarUint code w) : v = w := by
  cases first with
  | short start small =>
    cases second with
    | short => rfl
    | wide _ _ form => simp [wideForms] at form
  | wide start data form =>
    cases second with
    | short => simp [wideForms] at form
    | wide => rfl

theorem written_code_raw (v : UInt64) : RawVarUint (VarUint.byteRepr v) v := by
  have bound := v.toNat_lt
  have wide : ∀ start width, (start, width) ∈ wideForms → v.toNat < 256 ^ width →
      RawVarUint (start :: toBytes width v.toNat) v := by
    intro start width form fits
    have raw := RawVarUint.wide start (toBytes width v.toNat) (by rwa [toBytes_length])
    rwa [ofBytes_toBytes width _ fits, UInt64.ofNat_toNat] at raw
  rw [VarUint.byteRepr_eq]
  split
  · rename_i small
    have raw := RawVarUint.short (UInt8.ofNat v.toNat) (by
      rw [UInt8.lt_iff_toNat_lt, UInt8.toNat_ofNat']
      have : (0xfd : UInt8).toNat = 253 := rfl
      omega)
    have value : (UInt8.ofNat v.toNat).toUInt64 = v := by
      apply UInt64.toNat_inj.mp
      rw [UInt8.toNat_toUInt64, UInt8.toNat_ofNat']
      omega
    rwa [value] at raw
  · split
    · exact wide 0xfd 2 (by decide) (by omega)
    · split
      · exact wide 0xfe 4 (by decide) (by omega)
      · exact wide 0xff 8 (by decide) (by omega)

theorem written_codes_decipher : Deciphers (fun _ => True) VarUint.byteRepr := by
  intro v w _ _ s t same
  obtain ⟨code, rest⟩ := raw_codes_decipher _ _ ⟨v, written_code_raw v⟩
    ⟨w, written_code_raw w⟩ s t same
  have other := written_code_raw w
  rw [← code] at other
  exact ⟨raw_value_unique (written_code_raw v) other, rest⟩

/-- A value written at some width either has that width, or loses a zero when it
    is written as a Var_uint. -/
theorem wide_form_zeros {start : UInt8} {width : Nat} (form : (start, width) ∈ wideForms)
    (v : UInt64) (bound : v.toNat < 256 ^ width) :
    VarUint.byteRepr v = start :: toBytes width v.toNat ∨
      zeros (VarUint.byteRepr v) < zeros (toBytes width v.toNat) := by
  have narrower : ∀ small extra head, head ≠ (0 : UInt8) → width = extra + small → 0 < extra →
      v.toNat < 256 ^ small →
      zeros (head :: toBytes small v.toNat) < zeros (toBytes width v.toNat) := by
    intro small extra head nonzero shape positive fits
    rw [shape, toBytes_wider small extra _ fits, zeros, List.count_cons_of_ne nonzero, zeros,
      List.count_append, List.count_replicate_self]
    omega
  have single : v.toNat < 256 → zeros [UInt8.ofNat v.toNat] < zeros (toBytes width v.toNat) := by
    intro fits
    obtain ⟨extra, shape, positive⟩ : ∃ extra, width = extra + 1 ∧ 0 < extra := by
      simp only [wideForms, List.mem_cons, Prod.mk.injEq, List.not_mem_nil, or_false] at form
      exact ⟨width - 1, by omega, by omega⟩
    have one : toBytes 1 v.toNat = [UInt8.ofNat v.toNat] := rfl
    rw [shape, toBytes_wider 1 extra _ fits, one, zeros, zeros, List.count_append,
      List.count_replicate_self]
    omega
  rw [VarUint.byteRepr_eq]
  simp only [wideForms, List.mem_cons, Prod.mk.injEq, List.not_mem_nil, or_false] at form
  split
  · exact Or.inr (single (by omega))
  · split
    · rename_i medium
      rcases form with ⟨rfl, rfl⟩ | ⟨rfl, rfl⟩ | ⟨rfl, rfl⟩
      · exact Or.inl rfl
      · exact Or.inr (narrower 2 2 0xfd (by decide) rfl (by decide) (by omega))
      · exact Or.inr (narrower 2 6 0xfd (by decide) rfl (by decide) (by omega))
    · split
      · rename_i large
        rcases form with ⟨rfl, rfl⟩ | ⟨rfl, rfl⟩ | ⟨rfl, rfl⟩
        · omega
        · exact Or.inl rfl
        · exact Or.inr (narrower 4 4 0xfe (by decide) rfl (by decide) (by omega))
      · rcases form with ⟨rfl, rfl⟩ | ⟨rfl, rfl⟩ | ⟨rfl, rfl⟩
        · omega
        · omega
        · exact Or.inl rfl

theorem wide_value {start : UInt8} {data : Bytes} (form : (start, data.length) ∈ wideForms) :
    (UInt64.ofNat (ofBytes data)).toNat = ofBytes data ∧
      toBytes data.length (ofBytes data) = data := by
  have width := (wide_start form).2.2
  have bound := ofBytes_lt data
  have power : 256 ^ data.length ≤ 256 ^ 8 := Nat.pow_le_pow_right (by decide) width
  refine ⟨?_, toBytes_ofBytes data⟩
  rw [UInt64.toNat_ofNat']
  exact Nat.mod_eq_of_lt (by omega)

/-- Writing a value again drops zeros from the code it was read from, unless it
    was read from the code that is written. -/
theorem raw_code_zeros {code : Bytes} {v : UInt64} (raw : RawVarUint code v) :
    VarUint.byteRepr v = code ∨ zeros (VarUint.byteRepr v) < zeros code := by
  cases raw with
  | short start small =>
    left
    have value : start.toUInt64.toNat = start.toNat := UInt8.toNat_toUInt64 start
    have bound : start.toNat < 253 := UInt8.lt_iff_toNat_lt.mp small
    rw [VarUint.byteRepr_eq, value, if_pos (by omega), UInt8.ofNat_toNat]
  | wide start data form =>
    obtain ⟨value, written⟩ := wide_value form
    have forms := wide_form_zeros form (UInt64.ofNat (ofBytes data))
      (by rw [value]; exact ofBytes_lt data)
    rw [value, written] at forms
    rcases forms with same | fewer
    · exact Or.inl same
    · right
      rw [zeros, zeros, List.count_cons_of_ne (wide_start form).2.1]
      exact fewer

theorem raw_code_drops {code : Bytes} {v : UInt64} (raw : RawVarUint code v) :
    Drops 0 (VarUint.byteRepr v) code True := by
  rcases raw_code_zeros raw with same | fewer
  · rw [same]; exact drops_same code
  · exact drops_fewer fewer

theorem truncated_whole {v : UInt64} (small : v.toNat < 2 ^ 32) : v.toUInt32.toUInt64 = v := by
  apply UInt64.toNat_inj.mp
  rw [UInt32.toNat_toUInt64, UInt64.toNat_toUInt32]
  exact Nat.mod_eq_of_lt small

/-- A value that 32 bits do not hold was read with eight bytes, and what is left of it takes
    four, or loses a zero. -/
theorem cut_code_zeros {code : Bytes} {v : UInt64} (raw : RawVarUint code v)
    (large : 2 ^ 32 ≤ v.toNat) :
    zeros (VarUint.byteRepr v.toUInt32.toUInt64) < zeros code ∨
      zeros (VarUint.byteRepr v.toUInt32.toUInt64) ≤ zeros code ∧
        ∃ rest, VarUint.byteRepr v.toUInt32.toUInt64 = 0xfe :: rest := by
  cases raw with
  | short start less =>
    have value : start.toUInt64.toNat = start.toNat := UInt8.toNat_toUInt64 start
    have := start.toNat_lt
    omega
  | wide start data form =>
    obtain ⟨value, written⟩ := wide_value form
    have bound := ofBytes_lt data
    rw [value] at large
    have width : data.length = 8 := by
      simp only [wideForms, List.mem_cons, Prod.mk.injEq, List.not_mem_nil, or_false] at form
      rcases form with ⟨_, width⟩ | ⟨_, width⟩ | ⟨_, width⟩
      · rw [width] at bound; omega
      · rw [width] at bound; omega
      · exact width
    have low : (UInt64.ofNat (ofBytes data)).toUInt32.toUInt64.toNat =
        ofBytes data % 256 ^ 4 := by
      rw [UInt32.toNat_toUInt64, UInt64.toNat_toUInt32, value]
      rfl
    have forms := wide_form_zeros (show (0xfe, 4) ∈ wideForms by decide)
      (UInt64.ofNat (ofBytes data)).toUInt32.toUInt64
      (by rw [low]; exact Nat.mod_lt _ (by decide))
    rw [low, toBytes_mod] at forms
    have split : data = toBytes 4 (ofBytes data / 256 ^ 4) ++ toBytes 4 (ofBytes data) := by
      rw [width] at written
      exact written.symm.trans (toBytes_append 4 4 _)
    have whole := congrArg zeros split
    simp only [zeros, List.count_append] at whole
    have front : zeros (start :: data) = zeros data := List.count_cons_of_ne (wide_start form).2.1
    rcases forms with same | fewer
    · right
      have kept : zeros (0xfe :: toBytes 4 (ofBytes data)) = zeros (toBytes 4 (ofBytes data)) :=
        List.count_cons_of_ne (by decide)
      refine ⟨?_, _, same⟩
      rw [same, kept, front]
      simp only [zeros]
      omega
    · left
      rw [front]
      simp only [zeros] at fewer ⊢
      omega

/-- Cut down to 32 bits, a value still needs no more zeros than it was read with. -/
theorem truncated_code_zeros {code : Bytes} {v : UInt64} (raw : RawVarUint code v) :
    zeros (VarUint.byteRepr v.toUInt32.toUInt64) ≤ zeros code := by
  by_cases small : v.toNat < 2 ^ 32
  · rw [truncated_whole small]
    exact (raw_code_drops raw).1
  · rcases cut_code_zeros raw (by omega) with fewer | ⟨fewer, _⟩
    · exact fewer.le
    · exact fewer

theorem written_code_zeros (v : UInt64) :
    zeros (VarUint.byteRepr v) ≤ 1 ∨ 0x10000 ≤ v.toNat ∧ zeros (VarUint.byteRepr v) ≤ 9 := by
  have atMost : ∀ bytes : Bytes, zeros bytes ≤ bytes.length := fun bytes => List.count_le_length
  rw [VarUint.byteRepr_eq]
  split
  · exact Or.inl (atMost _)
  · rename_i notSmall
    split
    · left
      rename_i medium
      rw [zeros, List.count_cons_of_ne (by decide)]
      change zeros (toBytes 2 v.toNat) ≤ 1
      have two := atMost (toBytes 2 v.toNat)
      rw [toBytes_length] at two
      by_contra both
      have allZero : ∀ b ∈ toBytes 2 v.toNat, 0 = b := by
        apply List.count_eq_length.mp
        rw [toBytes_length]
        change zeros _ = 2
        omega
      have blank : toBytes 2 v.toNat = toBytes 2 0 := by
        rw [toBytes_zero, List.eq_replicate_iff]
        exact ⟨toBytes_length 2 _, fun b member => (allZero b member).symm⟩
      have := toBytes_injective 2 (by omega) (by decide) blank
      omega
    · right
      refine ⟨by omega, ?_⟩
      split
      · have := atMost (0xfe :: toBytes 4 v.toNat)
        rw [List.length_cons, toBytes_length] at this
        omega
      · have := atMost (0xff :: toBytes 8 v.toNat)
        rwa [List.length_cons, toBytes_length] at this

theorem written_code_start (v : UInt64) (zero : 0 < zeros (VarUint.byteRepr v)) :
    ∃ start rest, VarUint.byteRepr v = start :: rest ∧ isSpace start = false := by
  rw [VarUint.byteRepr_eq] at zero ⊢
  split
  · rename_i small
    rw [if_pos small] at zero
    refine ⟨_, [], rfl, ?_⟩
    have member := List.count_pos_iff.mp zero
    rw [← List.mem_singleton.mp member]
    decide
  · split
    · exact ⟨_, _, rfl, by decide⟩
    · split <;> exact ⟨_, _, rfl, by decide⟩

theorem readBigEndian_heap {width value : Nat} {s t : ReadState}
    (run : (readBigEndian width).run s = .ok (value, t)) : t.heap = s.heap := by
  rw [readBigEndian_run] at run
  simp only [Except.ok.injEq, Prod.mk.injEq] at run
  rw [← run.2]

theorem readVarUint_heap {v : UInt64} {s t : ReadState} (run : readVarUint.run s = .ok (v, t)) :
    t.heap = s.heap := by
  obtain ⟨start, mid, extracted, run⟩ := run_bind_ok.mp run
  have same : mid.heap = s.heap := by
    rw [extract_run] at extracted
    simp only [Except.ok.injEq, Prod.mk.injEq] at extracted
    rw [← extracted.2]
  have wide : ∀ width, (UInt64.ofNat <$> readBigEndian width).run mid = .ok (v, t) →
      t.heap = s.heap := by
    intro width tail
    obtain ⟨value, read, _⟩ := run_map_ok.mp tail
    exact (readBigEndian_heap read).trans same
  cases start with
  | none => rw [← (run_pure_ok.mp run).2]; exact same
  | some start =>
    simp only at run
    split at run
    · rw [← (run_pure_ok.mp run).2]; exact same
    · split at run
      · exact wide 2 run
      · split at run
        · exact wide 4 run
        · exact wide 8 run

/-- The start byte that is left when the others are excluded. -/
theorem widest_start {start : UInt8} (large : ¬ start < 0xfd) (notTwo : ¬ start = 0xfd)
    (notFour : ¬ start = 0xfe) : start = 0xff := by
  have bound := start.toNat_lt
  have lower : 253 ≤ start.toNat := UInt8.le_iff_toNat_le.mp (UInt8.not_lt.mp large)
  have not253 : start.toNat ≠ 253 := fun same => notTwo (UInt8.toNat_inj.mp same)
  have not254 : start.toNat ≠ 254 := fun same => notFour (UInt8.toNat_inj.mp same)
  apply UInt8.toNat_inj.mp
  change start.toNat = 255
  omega

/-- What readVar_uint took off a stream that is still alive: white space and one
    code of the value. -/
theorem readVarUint_alive {v : UInt64} {s t : ReadState} (run : readVarUint.run s = .ok (v, t))
    (alive : t.buffer.fail = false) : s.buffer.fail = false ∧ ∃ spaces code,
      s.buffer.unread = spaces ++ code ++ t.buffer.unread ∧ (∀ b ∈ spaces, isSpace b = true) ∧
      RawVarUint code v ∧ ∀ b ∈ code.head?, isSpace b = false := by
  obtain ⟨start, mid, extracted, run⟩ := run_bind_ok.mp run
  rw [extract_run] at extracted
  simp only [Except.ok.injEq, Prod.mk.injEq] at extracted
  obtain ⟨first, after⟩ := extracted
  have got : s.buffer.extract = (start, mid.buffer) := by rw [← first, ← after]
  cases start with
  | none =>
    obtain ⟨_, rfl⟩ := run_pure_ok.mp run
    rw [extract_none got] at alive
    cases alive
  | some start =>
    obtain ⟨good, _, dark, spaces, blank, unread⟩ := extract_some got
    have wide : ∀ width, (start, width) ∈ wideForms →
        (UInt64.ofNat <$> readBigEndian width).run mid = .ok (v, t) →
        s.buffer.fail = false ∧ ∃ spaces code,
          s.buffer.unread = spaces ++ code ++ t.buffer.unread ∧ (∀ b ∈ spaces, isSpace b = true) ∧
          RawVarUint code v ∧ ∀ b ∈ code.head?, isSpace b = false := by
      intro width form tail
      obtain ⟨value, read, rfl⟩ := run_map_ok.mp tail
      obtain ⟨_, _, data, length, rest, rfl⟩ := readBigEndian_alive read alive
      refine ⟨good, spaces, start :: data, ?_, blank, .wide start data (by rwa [length]), ?_⟩
      · rw [unread, rest]; simp
      · simpa using dark
    simp only at run
    split at run
    · rename_i small
      obtain ⟨rfl, rfl⟩ := run_pure_ok.mp run
      refine ⟨good, spaces, [start], ?_, blank, .short start small, by simpa using dark⟩
      rw [unread]; simp
    · rename_i large
      split at run
      · rename_i two
        exact wide 2 (by rw [two]; decide) run
      · split at run
        · rename_i four
          exact wide 4 (by rw [four]; decide) run
        · rename_i notTwo notFour
          exact wide 8 (by rw [widest_start large notTwo notFour]; decide) run

theorem extract_dark {b : UInt8} (dark : isSpace b = false) (rest : Bytes) :
    StringStream.extract ⟨b :: rest, false⟩ = (some b, ⟨rest, false⟩) := by
  simp [StringStream.extract, dark]

theorem extract_blank {b : UInt8} (blank : isSpace b = true) (rest : Bytes) :
    StringStream.extract ⟨b :: rest, false⟩ = StringStream.extract ⟨rest, false⟩ := by
  simp [StringStream.extract, blank]

/-- A code is read for its value, unless its first byte counts as white space. -/
theorem raw_code_read {code : Bytes} {v : UInt64} (raw : RawVarUint code v)
    (dark : ∀ b ∈ code.head?, isSpace b = false) (rest : Bytes) (heap : Heap) :
    readVarUint.run ⟨⟨code ++ rest, false⟩, heap⟩ = .ok (v, ⟨⟨rest, false⟩, heap⟩) := by
  cases raw with
  | short start small =>
    have first := extract_dark (dark start rfl) rest
    refine run_bind_ok.mpr ⟨_, _, extract_run _, ?_⟩
    simp only [List.singleton_append, first, if_pos small]
    rfl
  | wide start data form =>
    have first := extract_dark (dark start rfl) (data ++ rest)
    have read : (UInt64.ofNat <$> readBigEndian data.length).run ⟨⟨data ++ rest, false⟩, heap⟩ =
        .ok (UInt64.ofNat (ofBytes data), ⟨⟨rest, false⟩, heap⟩) :=
      readUint_bytes UInt64.ofNat rfl heap
    refine run_bind_ok.mpr ⟨_, _, extract_run _, ?_⟩
    simp only [List.cons_append, first]
    simp only [wideForms, List.mem_cons, Prod.mk.injEq, List.not_mem_nil, or_false] at form
    rcases form with ⟨rfl, width⟩ | ⟨rfl, width⟩ | ⟨rfl, width⟩
    · rw [width] at read
      exact read
    · rw [width] at read
      exact read
    · rw [width] at read
      exact read

theorem blank_skipped {b : UInt8} (blank : isSpace b = true) (rest : Bytes) (heap : Heap) :
    readVarUint.run ⟨⟨b :: rest, false⟩, heap⟩ = readVarUint.run ⟨⟨rest, false⟩, heap⟩ := by
  rw [readVarUint, StateT.run_bind, StateT.run_bind, extract_run, extract_run]
  simp only [extract_blank blank]

end EnsicoinVarUintCodes
