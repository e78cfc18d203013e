import Ensicoin.ConstantMemory

/-!
Readings of a payload that use nothing but its bytes. A scan goes through the bytes
as a decoder does and fails where a C string runs on into memory nobody wrote. A scan
settles a decoder: what it passes is decoded alike in every memory, and what is decoded
over memory of ones is passed.
-/
namespace EnsicoinReceivedBytes
open BigEndianWords EnsicoinRuntime EnsicoinNetworkBuffer EnsicoinNetworkable EnsicoinVarUintCodes
variable {α β γ δ : Type}

abbrev Scan (α : Type) := StateT StringStream Option α

/-- A decoder that asks for no memory. -/
def onStream (dec : Decoder α) : Scan α := fun s =>
  (dec.run ⟨s, constantHeap 0⟩).toOption.map fun r => (r.1, r.2.buffer)

/-- The array of readStr is as long as what was read into it: a C string that has no
    zero there fails. -/
def scanStr (length : Nat) : Scan Unit := fun s =>
  (readLoop length 0 [] [] s).toOption.map fun r => ((), r.2)

def scanVarStr : Scan Unit := do
  let size ← onStream readVarUint
  scanStr size.toNat

def scanElements (element : Scan Unit) : Nat → Scan Unit
  | 0 => return ()
  | size + 1 => do
    element
    scanElements element size

def scanArray (element : Scan Unit) : Scan Unit := do
  let size ← onStream readVarUint
  scanElements element size.toNat

structure Settles (dec : Decoder α) (scan : Scan β) (view : α → β) : Prop where
  sound : ∀ s b t, scan.run s = some (b, t) → ∃ a, view a = b ∧
    ∀ heap, ∃ later, dec.run ⟨s, heap⟩ = .ok (a, ⟨t, later⟩)
  complete : ∀ s a st, dec.run ⟨s, constantHeap 1⟩ = .ok (a, st) →
    scan.run s = some (view a, st.buffer) ∧ st.heap = constantHeap 1

theorem scan_bind {x : Scan α} {f : α → Scan β} {s t : StringStream} {b : β} :
    (x >>= f).run s = some (b, t) ↔
      ∃ a mid, x.run s = some (a, mid) ∧ (f a).run mid = some (b, t) := by
  rw [StateT.run_bind]
  cases x.run s with
  | none => simp
  | some pair =>
    obtain ⟨a, mid⟩ := pair
    simp

theorem scan_pure {a b : α} {s t : StringStream} :
    (pure a : Scan α).run s = some (b, t) ↔ a = b ∧ s = t := by
  rw [StateT.run_pure]
  simp

theorem settles_bind {dec : Decoder α} {scan : Scan β} {view : α → β} {next : α → Decoder γ}
    {later : β → Scan δ} {view' : γ → δ} (first : Settles dec scan view)
    (second : ∀ a, Settles (next a) (later (view a)) view') :
    Settles (dec >>= next) (scan >>= later) view' where
  sound := by
    intro s d t run
    obtain ⟨b, mid, runFirst, runSecond⟩ := scan_bind.mp run
    obtain ⟨a, rfl, all⟩ := first.sound s b mid runFirst
    obtain ⟨c, same, rest⟩ := (second a).sound mid d t runSecond
    refine ⟨c, same, fun heap => ?_⟩
    obtain ⟨between, taken⟩ := all heap
    obtain ⟨after, last⟩ := rest between
    exact ⟨after, run_bind_ok.mpr ⟨a, _, taken, last⟩⟩
  complete := by
    intro s c st run
    obtain ⟨a, ⟨mid, heap⟩, runFirst, runSecond⟩ := run_bind_ok.mp run
    obtain ⟨passed, steady⟩ := first.complete s a _ runFirst
    simp only at steady
    subst steady
    obtain ⟨also, after⟩ := (second a).complete mid c st runSecond
    exact ⟨scan_bind.mpr ⟨view a, mid, passed, also⟩, after⟩

theorem settles_pure (view : α → β) (a : α) : Settles (pure a) (pure (view a)) view where
  sound := by
    intro s b t run
    obtain ⟨same, rfl⟩ := scan_pure.mp run
    exact ⟨a, same, fun heap => ⟨heap, rfl⟩⟩
  complete := by
    intro s b st run
    obtain ⟨rfl, rfl⟩ := run_pure_ok.mp run
    exact ⟨rfl, rfl⟩

/-- A scan whose result is not used, in front of a value that is put together. -/
theorem settles_last {dec : Decoder α} {scan : Scan Unit} {view : α → Unit}
    (given : Settles dec scan view) (f : α → γ) :
    Settles (dec >>= fun a => pure (f a)) scan fun _ => () := by
  have both : Settles (dec >>= fun a => pure (f a)) (scan >>= fun _ => pure ()) fun _ => () :=
    settles_bind given fun a => settles_pure (fun _ => ()) (f a)
  rwa [bind_pure_unit] at both

/-- Neither the value nor the rest of the stream depends on memory, which stays. -/
def MemoryFree (dec : Decoder α) : Prop :=
  ∀ s, ∃ a t, ∀ heap, dec.run ⟨s, heap⟩ = .ok (a, ⟨t, heap⟩)

theorem memoryFree_settles {dec : Decoder α} (free : MemoryFree dec) :
    Settles dec (onStream dec) id where
  sound := by
    intro s b t run
    obtain ⟨a, u, all⟩ := free s
    simp only [onStream, StateT.run] at run all
    rw [all (constantHeap 0)] at run
    cases run
    exact ⟨_, rfl, fun heap => ⟨heap, all heap⟩⟩
  complete := by
    intro s a st run
    obtain ⟨b, u, all⟩ := free s
    rw [all (constantHeap 1)] at run
    cases run
    refine ⟨?_, rfl⟩
    simp only [onStream, StateT.run] at all ⊢
    rw [all (constantHeap 0)]
    rfl

theorem readBigEndian_free (width : Nat) : MemoryFree (readBigEndian width) :=
  fun s => ⟨if (s.read width).1.length ≠ width then 0 else ofBytes (s.read width).1,
    (s.read width).2, fun heap => readBigEndian_run width ⟨s, heap⟩⟩

theorem map_free {dec : Decoder α} (free : MemoryFree dec) (f : α → β) :
    MemoryFree (f <$> dec) := by
  intro s
  obtain ⟨a, t, all⟩ := free s
  exact ⟨f a, t, fun heap => run_map_ok.mpr ⟨a, all heap, rfl⟩⟩

theorem bind_free {dec : Decoder α} {next : α → Decoder β} (free : MemoryFree dec)
    (rest : ∀ a, MemoryFree (next a)) : MemoryFree (dec >>= next) := by
  intro s
  obtain ⟨a, t, all⟩ := free s
  obtain ⟨b, u, more⟩ := rest a t
  exact ⟨b, u, fun heap => run_bind_ok.mpr ⟨a, _, all heap, more heap⟩⟩

theorem pure_free (a : α) : MemoryFree (pure a) := fun s => ⟨a, s, fun _ => rfl⟩

theorem extract_free : MemoryFree extract :=
  fun s => ⟨s.extract.1, s.extract.2, fun heap => extract_run ⟨s, heap⟩⟩

theorem readVarUint_free : MemoryFree readVarUint := by
  refine bind_free extract_free fun start => ?_
  cases start with
  | none => exact pure_free 0
  | some start =>
    simp only
    split
    · exact pure_free _
    · split
      · exact map_free (readBigEndian_free 2) _
      · split
        · exact map_free (readBigEndian_free 4) _
        · exact map_free (readBigEndian_free 8) _

section Strings

theorem overwrite_append (data known tail : Bytes) : overwrite data (known ++ tail) =
    overwrite data known ++ tail.drop (data.length - known.length) := by
  simp [overwrite, List.drop_append]

theorem cString_extend {data chunk : Bytes} (found : cString data = some chunk) (tail : Bytes) :
    cString (data ++ tail) = some chunk := by
  have zero := cString_has_zero found
  rw [cString_terminated zero, ← found, cString, if_pos zero]

variable {length readLength : Nat} {known acc : Bytes} {buffer : StringStream}
variable {result : Bytes × StringStream}

/-- What comes of the bytes known of the array comes of the array, whatever its others are. -/
theorem readLoop_known (run : readLoop length readLength known acc buffer = .ok result)
    (tail : Bytes) : readLoop length readLength (known ++ tail) acc buffer = .ok result := by
  obtain ⟨v, after⟩ := result
  have extend : ∀ {data known chunk : Bytes} (tail : Bytes),
      cString (overwrite data known) = some chunk →
      cString (overwrite data (known ++ tail)) = some chunk := by
    intro data known chunk tail found
    rw [overwrite_append]
    exact cString_extend found _
  rw [readLoop_iff] at run ⊢
  induction run generalizing tail with
  | chunk more found full later ih =>
    refine .chunk more (extend tail found) full ?_
    rw [overwrite_append]
    exact ih _
  | cutChunk more found short => exact .cutChunk more (extend tail found) short
  | last ends full found => exact .last ends full (extend tail found)
  | cutLast ends short => exact .cutLast ends short

/-- Over other bytes that are no zeros, a C string ends among the known ones or nowhere. -/
theorem readLoop_unknown {tail : Bytes} (free : 0 ∉ tail)
    (run : readLoop length readLength (known ++ tail) acc buffer = .ok result) :
    readLoop length readLength known acc buffer = .ok result := by
  obtain ⟨v, after⟩ := result
  have known_found : ∀ {data known tail chunk : Bytes}, 0 ∉ tail →
      cString (overwrite data (known ++ tail)) = some chunk →
      cString (overwrite data known) = some chunk := by
    intro data known tail chunk free found
    rw [overwrite_append] at found
    exact cString_append (fun member => free (List.mem_of_mem_drop member)) found
  rw [readLoop_iff] at run ⊢
  generalize whole : known ++ tail = array at run
  induction run generalizing known tail with
  | chunk more found full later ih =>
    subst whole
    refine .chunk more (known_found free found) full ?_
    exact ih (fun member => free (List.mem_of_mem_drop member)) (overwrite_append _ _ _).symm
  | cutChunk more found short =>
    subst whole
    exact .cutChunk more (known_found free found) short
  | last ends full found =>
    subst whole
    exact .last ends full (known_found free found)
  | cutLast ends short => exact .cutLast ends short

end Strings

theorem readStr_settles (length : Nat) : Settles (readStr length) (scanStr length) fun _ => () where
  sound := by
    intro s b t run
    obtain ⟨⟨v, after⟩, loop, same⟩ := Option.map_eq_some_iff.mp run
    cases same
    refine ⟨v, rfl, fun heap => ⟨fun n => heap (n + 1), ?_⟩⟩
    have known := readLoop_known (toOption_some loop) (List.ofFn fun i : Fin bufferSize => heap 0 i)
    rw [List.nil_append] at known
    exact (readStr_run length _).mpr ⟨_, _, rfl, known, rfl⟩
  complete := by
    intro s v st run
    obtain ⟨array, mid, fresh, loop, same⟩ := (readStr_run length _).mp run
    rw [newArray_constant bufferSize 1 _ rfl] at fresh
    cases fresh
    have free : (0 : UInt8) ∉ List.replicate bufferSize 1 :=
      fun member => absurd (List.eq_of_mem_replicate member) (by decide)
    have scanned : readLoop length 0 [] [] s = .ok _ := readLoop_unknown free loop
    refine ⟨?_, same⟩
    change (readLoop length 0 [] [] s).toOption.map _ = _
    rw [scanned]
    rfl

theorem uint32_settles : Settles readUint32 (onStream readUint32) id :=
  memoryFree_settles (map_free (readBigEndian_free 4) UInt32.ofNat)

theorem uint64_settles : Settles readUint64 (onStream readUint64) id :=
  memoryFree_settles (map_free (readBigEndian_free 8) UInt64.ofNat)

theorem varUint_settles : Settles readVarUint (onStream readVarUint) id :=
  memoryFree_settles readVarUint_free

theorem varStr_settles : Settles VarStr.ofBuffer scanVarStr fun _ => () :=
  settles_bind varUint_settles fun size => readStr_settles size.toNat

theorem elements_settle {element : Decoder α} {scan : Scan Unit}
    (each : Settles element scan fun _ => ()) (size : Nat) :
    Settles (readElements element size) (scanElements scan size) fun _ => () := by
  induction size with
  | zero => exact settles_pure (fun _ => ()) []
  | succ size ih => exact settles_bind each fun first => settles_last ih (first :: ·)

theorem array_settles {element : Decoder α} {scan : Scan Unit}
    (each : Settles element scan fun _ => ()) :
    Settles (VarArray.ofBuffer element) (scanArray scan) fun _ => () :=
  settles_bind varUint_settles fun size => elements_settle each size.toNat

end EnsicoinReceivedBytes
