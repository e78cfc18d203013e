import Ensicoin.ValueConservation

/-!
Exact admission. The criterion is stated over the outputs that exist (Source) and
exact sums; addTransaction is compared with it in every pool that additions build.
Since inputValue and outputValue both return 0, no transaction is ever admitted.
-/
namespace EnsicoinMempoolAdmission
open EnsicoinRuntime EnsicoinNetworkable EnsicoinScript EnsicoinTransaction EnsicoinUtxo
open EnsicoinLinkedTransaction EnsicoinMempool EnsicoinOrphanPromotion EnsicoinValueConservation

def Represents (utxos : UTXOManager) (entries : UTXO → Option UTXOdata) : Prop :=
  ∀ id, utxos.db id.byteRepr = (entries id).map UTXOdata.byteRepr

structure Source where
  value : Nat
  script : Script
  coinbaseHeight : Option Int

def source (entries : UTXO → Option UTXOdata) (pool : Mempool) (id : UTXO) : Option Source :=
  ((pool.mainPool id.transactionHash.value).bind fun tx =>
    tx.outputs[id.index.toNat]?.map fun output => ⟨output.value.toNat, output.script, none⟩).or
  ((entries id).map fun data =>
    ⟨data.value.toNat, data.script, if data.coinbase then some data.height.toInt else none⟩)

structure Admissible (lib : Libraries) (entries : UTXO → Option UTXOdata) (pool : Mempool)
    (tx : Transaction) : Prop where
  checked : tx.check lib = true
  distinct : tx.getInputsId.Nodup
  unspent : ∀ h other, pool.mainPool h = some other →
    ∀ id ∈ tx.getInputsId, id ∉ other.getInputsId
  mature : ∀ id ∈ tx.getInputsId, ∀ spent ∈ source entries pool id,
    ∀ height ∈ spent.coinbaseHeight, height + 42 ≤ pool.currentHeight.toInt
  covered : (tx.outputs.map fun output => output.value.toNat).sum <
    (tx.getInputsId.map fun id => ((source entries pool id).map Source.value).getD 0).sum
  unlocked : ∀ input ∈ tx.inputs, ∀ spent ∈ source entries pool input.previousOutput,
    Accepts lib.toCrypto (input.script.chain spent.script)

/-- Admissible transactions enter and the others leave mainPool as it is. -/
def AdmissionExact (lib : Libraries) (fuel : Nat) (entries : UTXO → Option UTXOdata)
    (s : PoolState) (tx : Transaction) : Prop :=
  (Admissible lib entries s.pool tx → ∃ t, Mempool.addTransaction lib fuel tx s = (.ok true, t) ∧
    t.pool.exists (tx.hash lib.toCrypto).value = true) ∧
  (¬ Admissible lib entries s.pool tx → ∃ t, Mempool.addTransaction lib fuel tx s = (.ok false, t) ∧
    t.pool.mainPool = s.pool.mainPool)

/-- The records of the inputs can be read in the memory there is. -/
def Readable (s : PoolState) (tx : Transaction) : Prop :=
  ∃ data heap,
    ((LinkedTransaction.new tx s.pool).dependencies.mapM s.pool.utxos.getData).run s.heap =
    .ok (data, heap)

inductive Event where
  | addTransaction (tx : Transaction)
  | incrementHeight
  | decrementHeight

def after (lib : Libraries) (fuel : Nat) (s : PoolState) : Event → PoolState
  | .addTransaction tx => (Mempool.addTransaction lib fuel tx s).2
  | .incrementHeight => { s with pool := Mempool.incrementHeight s.pool }
  | .decrementHeight => { s with pool := Mempool.decrementHeight s.pool }

def Unused (utxos : UTXOManager) (s : PoolState) : Prop :=
  s.pool.utxos = utxos ∧ ∀ h, s.pool.mainPool h = none

theorem after_unused (lib : Libraries) (fuel : Nat) {utxos : UTXOManager} {s : PoolState}
    (unused : Unused utxos s) (event : Event) : Unused utxos (after lib fuel s event) := by
  cases event with
  | incrementHeight | decrementHeight => exact unused
  | addTransaction tx =>
    rw [after, addTransaction_run]
    split
    · exact unused
    · split
      · split <;> exact unused
      · split
        · exact unused
        · split <;> exact unused

theorem run_unused (lib : Libraries) (fuel : Nat) (utxos : UTXOManager) (height : Int32)
    (heap : Heap) (events : List Event) :
    Unused utxos (events.foldl (after lib fuel) ⟨Mempool.new utxos height, heap⟩) := by
  have general : ∀ s, Unused utxos s → Unused utxos (events.foldl (after lib fuel) s) := by
    induction events with
    | nil => intro s unused; exact unused
    | cons event events ih =>
      intro s unused
      exact ih _ (after_unused lib fuel unused event)
  exact general _ ⟨rfl, fun _ => rfl⟩

theorem insert_all_length (ids acc : List UTXO) :
    (ids.foldl (fun deps id => deps.insert id) acc).length ≤ acc.length + ids.length ∧
    ((ids.foldl (fun deps id => deps.insert id) acc).length = acc.length + ids.length ↔
      ids.Nodup ∧ ∀ id ∈ ids, id ∉ acc) := by
  induction ids generalizing acc with
  | nil => simp
  | cons id ids ih =>
    obtain ⟨bound, equal⟩ := ih (acc.insert id)
    rw [List.foldl_cons, List.length_cons]
    by_cases old : id ∈ acc
    · rw [List.insert_of_mem old] at bound equal ⊢
      refine ⟨by omega, ?_⟩
      constructor
      · intro same; omega
      · rintro ⟨_, apart⟩; exact absurd old (apart id (by simp))
    · rw [List.insert_of_not_mem old] at bound equal ⊢
      rw [List.length_cons] at bound equal
      refine ⟨by omega, ?_⟩
      have shape : acc.length + (ids.length + 1) = acc.length + 1 + ids.length := by omega
      rw [shape, equal]
      simp only [List.nodup_cons, List.mem_cons, not_or, forall_eq_or_imp, old, not_false_eq_true,
        true_and]
      constructor
      · rintro ⟨distinct, apart⟩
        exact ⟨⟨fun member => (apart id member).1 rfl, distinct⟩,
          fun a member => (apart a member).2⟩
      · rintro ⟨⟨fresh, distinct⟩, apart⟩
        exact ⟨distinct, fun a member => ⟨fun same => fresh (same ▸ member), apart a member⟩⟩

theorem linked_unused {utxos : UTXOManager} {s : PoolState} (unused : Unused utxos s)
    {tx : Transaction} (there : ∀ id ∈ tx.getInputsId, utxos.exists id = true) :
    (LinkedTransaction.new tx s.pool).mempoolDeps = [] ∧
    (LinkedTransaction.new tx s.pool).dependencies =
      tx.getInputsId.foldl (fun deps id => deps.insert id) [] := by
  obtain ⟨same, absent⟩ := unused
  have linking : ∀ (ids : List UTXO) (acc : LinkedTransaction),
      (∀ id ∈ ids, utxos.exists id = true) →
      (ids.foldl (LinkedTransaction.link s.pool) acc).mempoolDeps = acc.mempoolDeps ∧
      (ids.foldl (LinkedTransaction.link s.pool) acc).dependencies =
        ids.foldl (fun deps id => deps.insert id) acc.dependencies := by
    intro ids
    induction ids with
    | nil => intro acc _; exact ⟨rfl, rfl⟩
    | cons id ids ih =>
      intro acc each
      have step : LinkedTransaction.link s.pool acc id =
          { acc with dependencies := acc.dependencies.insert id } := by
        have entry := each id (by simp)
        simp [LinkedTransaction.link, Mempool.exists, HashMemory.exists, absent, same, entry]
      rw [List.foldl_cons, List.foldl_cons, step]
      exact ih _ fun a member => each a (by simp [member])
  exact linking _ _ there

theorem orphan_iff_repeated {utxos : UTXOManager} {s : PoolState} (unused : Unused utxos s)
    {tx : Transaction} (there : ∀ id ∈ tx.getInputsId, utxos.exists id = true) :
    (LinkedTransaction.new tx s.pool).isOrphan = false ↔ tx.getInputsId.Nodup := by
  obtain ⟨noDeps, deps⟩ := linked_unused unused there
  have inputs := congrArg (fun t : Transaction => t.inputs.length) (linked_toTransaction tx s.pool)
  have counted := (insert_all_length tx.getInputsId []).2
  have size : tx.getInputsId.length = tx.inputs.length := List.length_map _
  simp only [List.length_nil, Nat.zero_add, List.not_mem_nil, not_false_eq_true, implies_true,
    and_true] at counted
  rw [LinkedTransaction.isOrphan, noDeps, deps, inputs, ← counted, ← size]
  simp

theorem inputValue_defined {utxos : UTXOManager} {s : PoolState} (unused : Unused utxos s)
    {tx : Transaction} (there : ∀ id ∈ tx.getInputsId, utxos.exists id = true)
    (distinct : tx.getInputsId.Nodup) :
    (∃ v heap, ((LinkedTransaction.new tx s.pool).inputValue s.pool).run s.heap = .ok (v, heap)) ↔
      Readable s tx := by
  have linked := (orphan_iff_repeated unused there).mpr distinct
  have none := (linked_unused unused there).1
  have fits : SumsFit (LinkedTransaction.new tx s.pool) s.pool := by
    intro front start
    rw [none] at start
    rw [List.prefix_nil.mp start]
    exact int_in 0
  rw [inputValue_defined_iff s.heap linked (by simp [none]), and_iff_left fits]
  exact Iff.rfl

theorem addTransaction_unused {lib : Libraries} (fuel : Nat) {utxos : UTXOManager} {s : PoolState}
    (unused : Unused utxos s) {tx : Transaction}
    (there : ∀ id ∈ tx.getInputsId, utxos.exists id = true)
    (fresh : s.pool.orphanExists (tx.hash lib.toCrypto).value = false)
    (checked : tx.check lib = true) :
    (¬ tx.getInputsId.Nodup → ∃ t, Mempool.addTransaction lib fuel tx s = (.ok true, t)) ∧
    (tx.getInputsId.Nodup → ((∃ t, Mempool.addTransaction lib fuel tx s = (.ok false, t)) ↔
      Readable s tx) ∧ ∀ t, Mempool.addTransaction lib fuel tx s ≠ (.ok true, t)) := by
  have absent : s.pool.exists (tx.hash lib.toCrypto).value = false := by
    simp [Mempool.exists, HashMemory.exists, unused.2]
  rw [addTransaction_run]
  simp only [checked, fresh, absent, Bool.true_eq_false, Bool.false_eq_true, ↓reduceIte]
  constructor
  · intro repeated
    have orphan : (LinkedTransaction.new tx s.pool).isOrphan = true := by
      by_contra linked
      exact repeated ((orphan_iff_repeated unused there).mp (by simpa using linked))
    rw [orphan]
    exact ⟨_, rfl⟩
  · intro distinct
    have linked := (orphan_iff_repeated unused there).mpr distinct
    rw [linked, ← inputValue_defined unused there distinct]
    simp only [Bool.false_eq_true, ↓reduceIte]
    cases ((LinkedTransaction.new tx s.pool).inputValue s.pool).run s.heap with
    | error fault =>
      refine ⟨⟨?_, ?_⟩, ?_⟩
      · rintro ⟨t, same⟩; cases same
      · rintro ⟨v, heap, same⟩; cases same
      · intro t same; cases same
    | ok pair =>
      obtain ⟨v, heap⟩ := pair
      refine ⟨⟨fun _ => ⟨v, heap, rfl⟩, fun _ => ⟨_, rfl⟩⟩, ?_⟩
      intro t same; cases same

theorem admission_exact_iff_rejected (lib : Libraries) (fuel : Nat)
    (entries : UTXO → Option UTXOdata) (utxos : UTXOManager) (height : Int32) (heap : Heap)
    (events : List Event) (s : PoolState) (tx : Transaction)
    (represents : Represents utxos entries)
    (run : events.foldl (after lib fuel) ⟨Mempool.new utxos height, heap⟩ = s)
    (fresh : s.pool.orphanExists (tx.hash lib.toCrypto).value = false)
    (named : ∀ id ∈ tx.getInputsId, (source entries s.pool id).isSome) :
    AdmissionExact lib fuel entries s tx ↔ tx.check lib = false ∨
      tx.getInputsId.Nodup ∧ ¬ Admissible lib entries s.pool tx ∧ Readable s tx := by
  have unused : Unused utxos s := run ▸ run_unused lib fuel utxos height heap events
  have there : ∀ id ∈ tx.getInputsId, utxos.exists id = true := by
    intro id member
    have entry := named id member
    rw [source, unused.2] at entry
    simp only [Option.bind_none, Option.none_or, Option.isSome_map] at entry
    rw [UTXOManager.exists, represents, Option.isSome_map]
    exact entry
  cases checked : tx.check lib with
  | false =>
    simp only [true_or, iff_true]
    refine ⟨fun admissible => ?_, fun _ => ⟨s, ?_, rfl⟩⟩
    · rw [admissible.checked] at checked
      cases checked
    · rw [addTransaction_run, if_pos checked]
  | true =>
    obtain ⟨repeated, distinct⟩ := addTransaction_unused fuel unused there fresh checked
    simp only [Bool.true_eq_false, false_or]
    constructor
    · rintro ⟨accepted, rejected⟩
      have notAdmissible : ¬ Admissible lib entries s.pool tx := by
        intro admissible
        obtain ⟨t, added, _⟩ := accepted admissible
        exact (distinct admissible.distinct).2 t added
      obtain ⟨t, refused, _⟩ := rejected notAdmissible
      have nodup : tx.getInputsId.Nodup := by
        by_contra again
        obtain ⟨t', kept⟩ := repeated again
        rw [kept] at refused
        cases refused
      exact ⟨nodup, notAdmissible, (distinct nodup).1.mp ⟨t, refused⟩⟩
    · rintro ⟨nodup, notAdmissible, readable⟩
      refine ⟨fun admissible => absurd admissible notAdmissible, fun _ => ?_⟩
      obtain ⟨t, refused⟩ := (distinct nodup).1.mpr readable
      have still : Unused utxos t := by
        have next := after_unused lib fuel unused (.addTransaction tx)
        rwa [after, refused] at next
      exact ⟨t, refused, funext fun h => (still.2 h).trans (unused.2 h).symm⟩

/-- Texts as long as the document of a transaction with one input and one output. -/
def prefixLibraries : Libraries := ⟨prefixCrypto, fun _ => List.replicate 558 0x20⟩

def genesisEntries (id : UTXO) : Option UTXOdata :=
  if id = genesisOutput then some (UTXOdata.new 9 false 0 [] false Script.empty) else none

theorem genesis_represents : Represents genesisUtxos genesisEntries := by
  intro id
  by_cases same : id = genesisOutput
  · simp [same, genesisUtxos, UTXOManager.add, genesisEntries]
  · have apart : id.byteRepr ≠ genesisOutput.byteRepr :=
      fun equal => same (identifier_byteRepr_injective equal)
    simp [same, apart, genesisUtxos, UTXOManager.add, UTXOManager.empty, genesisEntries]

/-- A transaction without outputs is refused, as it should be. -/
theorem outputless_admission_exact : AdmissionExact prefixLibraries 1 genesisEntries
    ⟨Mempool.new genesisUtxos 0, constantHeap 0⟩
    { spending 1 [genesisOutput] with outputs := [] } :=
  (admission_exact_iff_rejected prefixLibraries 1 genesisEntries genesisUtxos 0 (constantHeap 0) []
    _ _ genesis_represents rfl rfl (by decide)).mpr (Or.inl (by decide))

theorem genesis_source (height : Int32) :
    source genesisEntries (Mempool.new genesisUtxos height) genesisOutput =
      some ⟨9, Script.empty, none⟩ := rfl

theorem spending_checked (version : Int32) :
    (spending version [genesisOutput]).check prefixLibraries = true := by
  have length : ((spending version [genesisOutput]).str prefixLibraries).length = 558 :=
    List.length_replicate
  rw [Transaction.check, length]
  rfl

/-- An admissible transaction, the first one the pool sees, is refused. -/
theorem admissible_transaction_refused :
    Admissible prefixLibraries genesisEntries (Mempool.new genesisUtxos 0)
      (spending 1 [genesisOutput]) ∧
    ¬ AdmissionExact prefixLibraries 1 genesisEntries
      ⟨Mempool.new genesisUtxos 0, constantHeap 0⟩ (spending 1 [genesisOutput]) := by
  have admissible : Admissible prefixLibraries genesisEntries (Mempool.new genesisUtxos 0)
      (spending 1 [genesisOutput]) :=
    { checked := spending_checked 1
      distinct := by decide
      unspent := by intro h other found; cases found
      mature := by decide
      covered := by decide
      unlocked := by
        intro input member spent found
        have only : input = ⟨genesisOutput, Script.empty⟩ := by simpa [spending] using member
        rw [only] at found ⊢
        rw [genesis_source] at found
        cases found
        exact ⟨0, _, rfl⟩ }
  refine ⟨admissible, fun exact => ?_⟩
  obtain ⟨t, added, _⟩ := exact.1 admissible
  exact ((addTransaction_unused 1 (run_unused prefixLibraries 1 genesisUtxos 0 (constantHeap 0) [])
    (by decide) rfl (spending_checked 1)).2 (by decide)).2 t added

end EnsicoinMempoolAdmission
