import Ensicoin.Blockchain
import Ensicoin.CompactTargets

/-!
The window of a stored chain. The loop of getWindowFrom would walk the chain as far as its
blocks are cached, but its count is 0, so no block is ever looked at.
-/
namespace EnsicoinDifficultyWindow
open EnsicoinRuntime EnsicoinNetworkable EnsicoinScript EnsicoinBlocks EnsicoinBlockchain
open EnsicoinBlockHash EnsicoinOrphanPromotion EnsicoinCompactTargets

inductive Stored (index : BlockIndex) (hash : Bytes) (block : Block) : Prop where
  | cached (found : index.cachedBlocks hash = some block)
  | onDisk (cold : index.cachedBlocks hash = none)
      (written : index.blockchain.blocksDB hash = some block.byteRepr)

def Absent (index : BlockIndex) (hash : Bytes) : Prop :=
  index.cachedBlocks hash = none ∧ index.exists hash = false

/-- The stored blocks from a hash back to the one whose previous block is not stored, each
    under its own hash. -/
inductive Chain (crypto : Crypto) (index : BlockIndex) : Bytes → List Block → Prop where
  | start {hash : Bytes} (absent : Absent index hash) : Chain crypto index hash []
  | link {hash : Bytes} {block : Block} {blocks : List Block}
      (own : (block.hash crypto).value = hash) (stored : Stored index hash block)
      (earlier : Chain crypto index block.header.hashPrevBlock.value blocks) :
      Chain crypto index hash (block :: blocks)

def target (block : Block) : BlockTarget := block.header.target

def Cached (crypto : Crypto) (index : BlockIndex) (blocks : List Block) : Prop :=
  ∀ block ∈ blocks, index.cachedBlocks (block.hash crypto).value = some block

def Retrieves (crypto : Crypto) (index : BlockIndex) (blocks : List Block) : Prop :=
  ∀ block ∈ blocks, ∀ heap, ∃ heap',
    (index.retrieve (block.hash crypto).value).run heap = .ok (block, heap')

structure WalksChain (crypto : Crypto) (index : BlockIndex) (latestBlock : Bytes)
    (blocks : List Block) : Prop where
  window : ∀ heap, ∃ heap', (index.getWindowFrom latestBlock).run heap =
    .ok ((blocks.take WINDOW_SIZE).map target, heap')
  retrieved : Retrieves crypto index blocks

theorem retrieves_iff (crypto : Crypto) (index : BlockIndex) (blocks : List Block) :
    Retrieves crypto index blocks ↔ Cached crypto index blocks := by
  constructor
  · intro retrieves block member
    obtain ⟨heap', run⟩ := retrieves block member (constantHeap 0)
    exact (retrieve_ok_iff.mp run).1
  · intro cached block member heap
    exact ⟨heap, retrieve_ok_iff.mpr ⟨cached block member, rfl⟩⟩

section Walk
variable {crypto : Crypto} {index : BlockIndex} {hash : Bytes} {blocks : List Block}

theorem stored_cached {block other : Block} (stored : Stored index hash block)
    (found : index.cachedBlocks hash = some other) : other = block := by
  cases stored with
  | cached same => exact Option.some.inj (found.symm.trans same)
  | onDisk cold written => cases cold.symm.trans found

theorem chain_empty_iff (chain : Chain crypto index hash blocks) :
    blocks = [] ↔ Absent index hash := by
  cases chain with
  | start absent => exact iff_of_true rfl absent
  | link own stored earlier =>
    refine iff_of_false (List.cons_ne_nil _ _) fun absent => ?_
    cases stored with
    | cached found => cases found.symm.trans absent.1
    | onDisk cold written =>
      have gone : (index.blockchain.blocksDB hash).isSome = false := absent.2
      rw [written] at gone
      cases gone

/-- By induction on the chain: so many turns end with the targets of so many blocks, if
    there are as many and all of them are cached. -/
theorem windowLoop_ok_iff (chain : Chain crypto index hash blocks) {turns : Nat}
    {heap heap' : Heap} {out : List BlockTarget} :
    (index.windowLoop turns hash).run heap = .ok (out, heap') ↔
      turns ≤ blocks.length ∧ Cached crypto index (blocks.take turns) ∧
        (blocks.take turns).map target = out ∧ heap = heap' := by
  induction chain generalizing turns out with
  | start absent =>
    cases turns with
    | zero => rw [BlockIndex.windowLoop, run_pure_ok]; simp [Cached]
    | succ turns =>
      refine iff_of_false (fun run => ?_) fun walked => absurd walked.1 (by simp)
      obtain ⟨block, _, found, _⟩ := windowLoop_turn.mp run
      cases absent.1.symm.trans found
  | @link hash block blocks own stored earlier ih =>
    cases turns with
    | zero => rw [BlockIndex.windowLoop, run_pure_ok]; simp [Cached]
    | succ turns =>
      have first : Cached crypto index (block :: blocks.take turns) ↔
          index.cachedBlocks hash = some block ∧ Cached crypto index (blocks.take turns) := by
        rw [Cached, List.forall_mem_cons, own, Cached]
      rw [List.take_succ_cons, first, windowLoop_turn, List.length_cons, Nat.succ_le_succ_iff,
        List.map_cons]
      constructor
      · intro walked
        obtain ⟨other, later, found, run, rfl⟩ := walked
        obtain rfl : other = block := stored_cached stored found
        obtain ⟨within, cached, rfl, rfl⟩ := ih.mp run
        exact ⟨within, ⟨found, cached⟩, rfl, rfl⟩
      · intro walked
        obtain ⟨within, ⟨found, cached⟩, rfl, rfl⟩ := walked
        exact ⟨block, _, found, ih.mpr ⟨within, cached, rfl, rfl⟩, rfl⟩

/-- The loop gives the window if it is told the length of the window and finds it cached. -/
theorem loop_window_iff (chain : Chain crypto index hash blocks) (turns : Nat) :
    (∀ heap, ∃ heap', (index.windowLoop turns hash).run heap =
      .ok ((blocks.take WINDOW_SIZE).map target, heap')) ↔
    turns = min WINDOW_SIZE blocks.length ∧ Cached crypto index (blocks.take WINDOW_SIZE) := by
  constructor
  · intro window
    obtain ⟨heap', run⟩ := window (constantHeap 0)
    obtain ⟨within, cached, targets, _⟩ := (windowLoop_ok_iff chain).mp run
    have length := congrArg List.length targets
    rw [List.length_map, List.length_map, List.length_take, List.length_take] at length
    have turned : turns = min WINDOW_SIZE blocks.length := by omega
    rw [turned, ← List.take_take, List.take_length] at cached
    exact ⟨turned, cached⟩
  · intro told heap
    obtain ⟨rfl, cached⟩ := told
    refine ⟨heap, (windowLoop_ok_iff chain).mpr ⟨Nat.min_le_right _ _, ?_, ?_, rfl⟩⟩
    · rwa [← List.take_take, List.take_length]
    · rw [← List.take_take, List.take_length]

/-- The count of getWindowFrom is the length of no other window than the empty one. -/
theorem window_iff (chain : Chain crypto index hash blocks) :
    (∀ heap, ∃ heap', (index.getWindowFrom hash).run heap =
      .ok ((blocks.take WINDOW_SIZE).map target, heap')) ↔ blocks = [] := by
  have loop := loop_window_iff chain 0
  constructor
  · intro window
    have none := (loop.mp window).1
    apply List.eq_nil_of_length_eq_zero
    unfold WINDOW_SIZE at none
    omega
  · intro none
    refine loop.mpr ?_
    subst none
    exact ⟨rfl, nofun⟩

theorem walks_chain_iff (chain : Chain crypto index hash blocks) :
    (WalksChain crypto index hash blocks ↔ Absent index hash) ∧
    (Retrieves crypto index blocks ↔ Cached crypto index blocks) := by
  refine ⟨?_, retrieves_iff crypto index blocks⟩
  rw [← chain_empty_iff chain]
  constructor
  · intro walks
    exact (window_iff chain).mp walks.window
  · intro none
    refine ⟨(window_iff chain).mpr none, ?_⟩
    subst none
    exact nofun

end Walk

def emptyIndex : BlockIndex := ⟨⟨fun _ => none⟩, fun _ => none⟩

theorem nothing_stored_walked : WalksChain prefixCrypto emptyIndex [] [] :=
  (walks_chain_iff (.start ⟨rfl, rfl⟩)).1.mpr ⟨rfl, rfl⟩

def versionHash : Bytes := (versionBlock.hash prefixCrypto).value

def cachedIndex : BlockIndex :=
  ⟨⟨fun _ => none⟩, Function.update (fun _ => none) versionHash (some versionBlock)⟩

def diskIndex : BlockIndex :=
  ⟨⟨Function.update (fun _ => none) versionHash (some versionBlock.byteRepr)⟩, fun _ => none⟩

/-- The window of one cached block is empty, and from the disk no block is returned. -/
theorem single_block_not_walked :
    (Chain prefixCrypto cachedIndex versionHash [versionBlock] ∧
      ¬ WalksChain prefixCrypto cachedIndex versionHash [versionBlock]) ∧
    Chain prefixCrypto diskIndex versionHash [versionBlock] ∧
      ¬ Retrieves prefixCrypto diskIndex [versionBlock] := by
  have apart : zeroHash.value ≠ versionHash := by decide +kernel
  refine ⟨⟨?_, ?_⟩, ?_, ?_⟩
  · have absent : Absent cachedIndex zeroHash.value :=
      ⟨by simp [cachedIndex, apart], rfl⟩
    exact .link rfl (.cached (by simp [cachedIndex])) (.start absent)
  · intro walks
    obtain ⟨_, run⟩ := walks.window (constantHeap 0)
    cases run
  · have absent : Absent diskIndex zeroHash.value :=
      ⟨rfl, by simp [diskIndex, BlockIndex.exists, Blockchain.exists, apart]⟩
    exact .link rfl (.onDisk rfl (by simp [diskIndex])) (.start absent)
  · intro retrieves
    have cached := (retrieves_iff prefixCrypto diskIndex [versionBlock]).mp retrieves
    cases cached versionBlock (List.mem_singleton.mpr rfl)

end EnsicoinDifficultyWindow
