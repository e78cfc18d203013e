import Ensicoin.Blocks
import Ensicoin.TransactionCodes

/-!
What the hash of a block commits to. A header is eight codes in a row, and each of
them but one loses nothing: the target is written as the 0 that getValue returns,
whatever it was.
-/
namespace EnsicoinBlockHash
open BigEndianWords PrefixCodes EnsicoinRuntime EnsicoinNetworkBuffer EnsicoinNetworkable
open EnsicoinScript EnsicoinScriptRuns EnsicoinBlocks EnsicoinUtxo EnsicoinTransactionWire
open EnsicoinTransactionCodes

def FlagsSized (h : BlockHeader) : Prop :=
  Sized h.blockFlags ∧ ∀ flag ∈ h.blockFlags, Sized flag

/-- The bytes of two headers, and the hashes of blocks with these headers, tell the
    headers apart; the hashes as far as no collision of SHA-256 is found. -/
def Commits (crypto : Crypto) (h h' : BlockHeader) : Prop :=
  (h.byteRepr = h'.byteRepr → h = h') ∧
  ∀ txs txs', Block.hash crypto ⟨h, txs⟩ = Block.hash crypto ⟨h', txs'⟩ →
    h = h' ∨ DoubleCollision crypto h.byteRepr h'.byteRepr

/-- All that byteRepr keeps: the target is left out. -/
def BlockHeader.kept (h : BlockHeader) :=
  (((((((h.version, h.blockFlags), h.hashPrevBlock), h.merkleRoot), h.timestamp), h.height),
    h.target.getValue), h.nonce)

theorem int64_deciphers :
    Deciphers (fun _ => True) fun v : Int64 => Uint64.byteRepr v.toUInt64 := by
  refine view_deciphers uint64_deciphers Int64.toUInt64 ?_
  intro v w same
  rw [← Int64.toInt64_toUInt64 v, same, Int64.toInt64_toUInt64]

theorem same_bytes_kept {h h' : BlockHeader} (sized : FlagsSized h) (sized' : FlagsSized h')
    (same : h.byteRepr = h'.byteRepr) : BlockHeader.kept h = BlockHeader.kept h' := by
  have fields := pair_deciphers (pair_deciphers (pair_deciphers (pair_deciphers (pair_deciphers
    (pair_deciphers (pair_deciphers int32_deciphers flags_decipher) hash_deciphers)
    hash_deciphers) int64_deciphers) uint32_deciphers) uint32_deciphers) uint64_deciphers
  refine deciphers_injective (x := BlockHeader.kept h) (y := BlockHeader.kept h') fields ?_ ?_ same
  · exact ⟨⟨⟨⟨⟨⟨⟨trivial, sized⟩, trivial⟩, trivial⟩, trivial⟩, trivial⟩, trivial⟩, trivial⟩
  · exact ⟨⟨⟨⟨⟨⟨⟨trivial, sized'⟩, trivial⟩, trivial⟩, trivial⟩, trivial⟩, trivial⟩, trivial⟩

theorem kept_iff (h h' : BlockHeader) :
    BlockHeader.kept h = BlockHeader.kept h' ↔ { h with target := h'.target } = h' := by
  constructor
  · intro same
    simp only [BlockHeader.kept, Prod.mk.injEq] at same
    obtain ⟨⟨⟨⟨⟨⟨⟨version, flags⟩, prev⟩, root⟩, timestamp⟩, height⟩, _⟩, nonce⟩ := same
    cases h
    cases h'
    simp_all
  · intro same
    rw [← same]
    rfl

/-- The target is never written, so two headers that differ in it alone are one in bytes. -/
theorem retargeted_byteRepr (h : BlockHeader) (target : BlockTarget) :
    BlockHeader.byteRepr { h with target := target } = h.byteRepr := rfl

theorem header_commits_iff (crypto : Crypto) (h h' : BlockHeader) (sized : FlagsSized h)
    (sized' : FlagsSized h') :
    Commits crypto h h' ↔ h.target = h'.target ∨ { h with target := h'.target } ≠ h' := by
  constructor
  · intro commits
    by_cases alike : { h with target := h'.target } = h'
    · left
      have bytes : h.byteRepr = h'.byteRepr := by
        rw [← retargeted_byteRepr h h'.target, alike]
      rw [commits.1 bytes]
    · exact Or.inr alike
  · intro apart
    have injective : h.byteRepr = h'.byteRepr → h = h' := by
      intro same
      have alike := (kept_iff h h').mp (same_bytes_kept sized sized' same)
      rcases apart with targets | differ
      · rw [← targets] at alike
        exact alike
      · exact absurd alike differ
    refine ⟨injective, ?_⟩
    intro txs txs' same
    rcases double_hash_injective same with bytes | collision
    · exact Or.inl (injective bytes)
    · exact Or.inr collision

theorem zeros_length : (List.replicate 32 (0 : UInt8)).length = HASH_LENGTH := rfl

def zeroHash : Hash := ⟨List.replicate 32 0, zeros_length⟩

def zeroHeader (target : Nat) : BlockHeader := ⟨0, [], zeroHash, zeroHash, 0, 0, ⟨target⟩, 0⟩

theorem zeroHeader_sized (target : Nat) : FlagsSized (zeroHeader target) :=
  ⟨Nat.two_pow_pos 64, by simp [zeroHeader]⟩

theorem equal_headers_committed : Commits refusingCrypto (zeroHeader 1) (zeroHeader 1) :=
  (header_commits_iff refusingCrypto _ _ (zeroHeader_sized 1) (zeroHeader_sized 1)).mpr
    (Or.inl rfl)

def Decoded (h : BlockHeader) : Prop :=
  ∃ data heap st, BlockHeader.ofBuffer.run ⟨⟨data, false⟩, heap⟩ = .ok (h, st) ∧
    st.buffer = ⟨[], false⟩

theorem zeroHash_read (rest : Bytes) :
    (FixedStr.ofBuffer HASH_LENGTH).run ⟨⟨List.replicate 32 0 ++ rest, false⟩, constantHeap 0⟩ =
      .ok (zeroHash, ⟨⟨rest, false⟩, constantHeap 0⟩) :=
  run_bind_ok.mpr ⟨_, _, readStr_terminated rfl (by decide) (by decide) _,
    run_bind_ok.mpr ⟨_, _, newArray_constant HASH_LENGTH 0 _ rfl, rfl⟩⟩

theorem zeroHeader_decoded (compressed : UInt32) :
    ∃ target, BlockTarget.ofBuffer.run ⟨⟨Uint32.byteRepr compressed ++ [], false⟩, constantHeap 0⟩ =
      .ok (target, ⟨⟨[], false⟩, constantHeap 0⟩) ∧ Decoded (zeroHeader target.value) := by
  have target : ∀ rest, BlockTarget.ofBuffer.run
      ⟨⟨Uint32.byteRepr compressed ++ rest, false⟩, constantHeap 0⟩ = .ok (_, ⟨⟨rest, false⟩, _⟩) :=
    fun rest => run_bind_ok.mpr ⟨_, _, Uint32.byteRepr_read compressed rest _, rfl⟩
  refine ⟨_, target [], Uint32.byteRepr 0 ++ (0 :: (List.replicate 32 0 ++ (List.replicate 32 0 ++
    (Uint64.byteRepr 0 ++ (Uint32.byteRepr 0 ++ (Uint32.byteRepr compressed ++
      (Uint64.byteRepr 0 ++ []))))))), constantHeap 0, ⟨⟨[], false⟩, constantHeap 0⟩, ?_, rfl⟩
  exact run_bind_ok.mpr ⟨_, _, Uint32.byteRepr_read 0 _ _, run_bind_ok.mpr ⟨_, _,
    empty_array_read _ _ _, run_bind_ok.mpr ⟨_, _, zeroHash_read _, run_bind_ok.mpr ⟨_, _,
    zeroHash_read _, run_bind_ok.mpr ⟨_, _, Uint64.byteRepr_read 0 _ _, run_bind_ok.mpr ⟨_, _,
    Uint32.byteRepr_read 0 _ _, run_bind_ok.mpr ⟨_, _, target _, run_bind_ok.mpr ⟨_, _,
    Uint64.byteRepr_read 0 _ _, rfl⟩⟩⟩⟩⟩⟩⟩⟩

/-- Two headers off the network that differ in their target and in nothing else. -/
theorem target_not_committed : Decoded (zeroHeader 1) ∧ Decoded (zeroHeader 2) ∧
    ¬ Commits refusingCrypto (zeroHeader 1) (zeroHeader 2) := by
  obtain ⟨one, readOne, decodedOne⟩ := zeroHeader_decoded 0x03000001
  obtain ⟨two, readTwo, decodedTwo⟩ := zeroHeader_decoded 0x03000002
  cases readOne
  cases readTwo
  refine ⟨decodedOne, decodedTwo, ?_⟩
  intro commits
  have same : zeroHeader 1 = zeroHeader 2 := commits.1 rfl
  have targets := congrArg (fun h : BlockHeader => h.target.value) same
  cases targets

end EnsicoinBlockHash
