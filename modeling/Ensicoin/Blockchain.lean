import Ensicoin.Blocks

/-!
Blocks on disk and the index over them. The database is an exact map of byte strings.
A block that is not cached is read from the database, but never returned: retrieve ends
without a return statement there.
-/
namespace EnsicoinBlockchain
open EnsicoinRuntime EnsicoinNetworkBuffer EnsicoinNetworkable EnsicoinBlocks

def WINDOW_SIZE : Nat := 2016

structure Blockchain where
  blocksDB : Bytes → Option Bytes

def Blockchain.exists (blockchain : Blockchain) (hash : Bytes) : Bool :=
  (blockchain.blocksDB hash).isSome

/-- A missing entry is logged, and the empty string is read in its place. -/
def Blockchain.getBlock (blockchain : Blockchain) (hash : Bytes) : Memory Block := fun heap => do
  let strData := (blockchain.blocksDB hash).getD []
  let (block, st) ← Block.ofBuffer.run ⟨⟨strData, false⟩, heap⟩
  return (block, st.heap)

structure BlockIndex where
  blockchain : Blockchain
  cachedBlocks : Bytes → Option Block

def BlockIndex.exists (index : BlockIndex) (hash : Bytes) : Bool := index.blockchain.exists hash

def BlockIndex.retrieve (index : BlockIndex) (hash : Bytes) : Memory Block :=
  match index.cachedBlocks hash with
  | some block => return block
  | none => do
    let _block ← index.blockchain.getBlock hash
    fun _ => .error .noReturn

/-- The turns of the loop in getWindowFrom that are left. -/
def BlockIndex.windowLoop (index : BlockIndex) : Nat → Bytes → Memory (List BlockTarget)
  | 0, _ => return []
  | turns + 1, currentHash => do
    let block ← index.retrieve currentHash
    let out ← index.windowLoop turns block.header.hashPrevBlock.value
    return block.header.target :: out

def BlockIndex.getWindowFrom (index : BlockIndex) (latestBlock : Bytes) :
    Memory (List BlockTarget) :=
  let count : Int32 := 0
  index.windowLoop count.toInt.toNat latestBlock

/-- timeTaken is not looked at, and neither is the window. -/
def BlockTarget.update (bIndex : BlockIndex) (_timeTaken : Int32) (currentHash : Bytes)
    (target : BlockTarget) : Memory BlockTarget := do
  let _blockWindow ← bIndex.getWindowFrom currentHash
  return target

theorem retrieve_ok_iff {index : BlockIndex} {hash : Bytes} {heap heap' : Heap} {block : Block} :
    (index.retrieve hash).run heap = .ok (block, heap') ↔
      index.cachedBlocks hash = some block ∧ heap = heap' := by
  unfold BlockIndex.retrieve
  cases found : index.cachedBlocks hash with
  | some cached => rw [run_pure_ok, Option.some.injEq]
  | none =>
    rw [run_bind_ok]
    constructor
    · intro run
      obtain ⟨_, _, _, gone⟩ := run
      cases gone
    · intro cached
      cases cached.1

theorem windowLoop_turn {index : BlockIndex} {turns : Nat} {hash : Bytes} {heap heap' : Heap}
    {out : List BlockTarget} :
    (index.windowLoop (turns + 1) hash).run heap = .ok (out, heap') ↔
      ∃ block later, index.cachedBlocks hash = some block ∧
        (index.windowLoop turns block.header.hashPrevBlock.value).run heap = .ok (later, heap') ∧
        block.header.target :: later = out := by
  rw [BlockIndex.windowLoop, run_bind_ok]
  constructor
  · intro run
    obtain ⟨block, mid, retrieved, turned⟩ := run
    obtain ⟨found, rfl⟩ := retrieve_ok_iff.mp retrieved
    obtain ⟨later, _, earlier, done⟩ := run_bind_ok.mp turned
    obtain ⟨rfl, rfl⟩ := run_pure_ok.mp done
    exact ⟨block, later, found, earlier, rfl⟩
  · intro turned
    obtain ⟨block, later, found, earlier, rfl⟩ := turned
    exact ⟨block, heap, retrieve_ok_iff.mpr ⟨found, rfl⟩, run_bind_ok.mpr
      ⟨later, heap', earlier, rfl⟩⟩

end EnsicoinBlockchain
