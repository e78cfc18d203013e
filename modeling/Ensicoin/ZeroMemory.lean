import Ensicoin.Connection

/-!
Decoding over memory that holds zeros. Every string ends where its bytes do, if not
before, so the messages of the handshake are always read.
-/
namespace EnsicoinZeroMemory
open EnsicoinRuntime EnsicoinNetworkBuffer EnsicoinNetworkable EnsicoinMessages
open EnsicoinConnection

theorem readStr_zeros (data : Bytes) (single : data.length < bufferSize) (rest : Bytes) :
    (readStr data.length).run ⟨⟨data ++ rest, false⟩, constantHeap 0⟩ =
      .ok (data.takeWhile (· != 0), ⟨⟨rest, false⟩, constantHeap 0⟩) := by
  have array : overwrite data (List.replicate bufferSize 0) =
      (data ++ [0]) ++ List.replicate (bufferSize - (data.length + 1)) 0 := by
    rw [overwrite, List.drop_replicate, List.append_assoc, List.singleton_append,
      ← List.replicate_succ]
    congr 2
    omega
  have ends : (data ++ [0]).takeWhile (· != (0 : UInt8)) = data.takeWhile (· != 0) := by
    rw [List.takeWhile_append]
    split
    · rename_i whole
      rw [(List.takeWhile_prefix _).eq_of_length whole]
      simp
    · rfl
  have found : cString (overwrite data (List.replicate bufferSize 0)) =
      some (data.takeWhile (· != 0)) := by
    rw [array, ← ends]
    exact cString_terminated (by simp)
  have loop := (readLoop_single rest single.le).mpr ⟨found, rfl⟩
  exact (readStr_run _ _).mpr ⟨_, _, newArray_constant bufferSize 0 _ rfl, loop, rfl⟩

theorem address_zeros (a : Address) (rest : Bytes) : ∃ read,
    Address.ofBuffer.run ⟨⟨a.byteRepr ++ rest, false⟩, constantHeap 0⟩ =
      .ok (read, ⟨⟨rest, false⟩, constantHeap 0⟩) := by
  have shape : a.byteRepr ++ rest = Uint64.byteRepr a.timestamp ++ (a.address.value ++
      (Uint16.byteRepr a.port ++ rest)) := by simp [Address.byteRepr]
  have size : a.address.value.length = 16 := a.address.size_eq
  have ip := readStr_zeros a.address.value (by rw [size]; decide)
    (Uint16.byteRepr a.port ++ rest)
  rw [size] at ip
  have short := (List.takeWhile_prefix (l := a.address.value) (· != (0 : UInt8))).length_le
  obtain ⟨first, once⟩ := FixedStr.ofString_fits (Nat.le_trans short (Nat.le_of_eq size))
    ⟨⟨Uint16.byteRepr a.port ++ rest, false⟩, constantHeap 0⟩
  obtain ⟨second, twice⟩ := FixedStr.ofString_fits (Nat.le_of_eq first.size_eq)
    ⟨⟨Uint16.byteRepr a.port ++ rest, false⟩, constantHeap 0⟩
  rw [shape]
  exact ⟨_, run_bind_ok.mpr ⟨_, _, Uint64.byteRepr_read _ _ _, run_bind_ok.mpr ⟨_, _,
    run_bind_ok.mpr ⟨_, _, ip, once⟩, run_bind_ok.mpr ⟨_, _, twice,
    run_bind_ok.mpr ⟨_, _, Uint16.byteRepr_read _ _ _, rfl⟩⟩⟩⟩⟩

theorem services_zeros : (VarArray.ofBuffer VarStr.ofBuffer).run
    ⟨⟨VarArray.byteRepr VarStr.byteRepr [ascii "node"], false⟩, constantHeap 0⟩ =
      .ok ([ascii "node"], ⟨⟨[], false⟩, constantHeap 0⟩) := by
  have shape : VarArray.byteRepr VarStr.byteRepr [ascii "node"] =
      1 :: 4 :: (ascii "node" ++ []) := by decide
  have node := readStr_zeros (ascii "node") (by decide) []
  rw [shape]
  exact run_bind_ok.mpr ⟨1, _, rfl, run_bind_ok.mpr ⟨_, _, run_bind_ok.mpr ⟨4, _, rfl, node⟩, rfl⟩⟩

/-- Over zeros a WhoAmI with the service of a node is read, with its version. -/
theorem whoAmI_zeros (version : UInt32) (address : Address) : ∃ read,
    WhoAmI.ofBuffer.run ⟨⟨(Contents.whoAmI version address [ascii "node"]).payload, false⟩,
      constantHeap 0⟩ = .ok (⟨.whoami, .whoAmI version read [ascii "node"]⟩,
        ⟨⟨[], false⟩, constantHeap 0⟩) := by
  have shape : (Contents.whoAmI version address [ascii "node"]).payload =
      Uint32.byteRepr version ++
        (address.byteRepr ++ VarArray.byteRepr VarStr.byteRepr [ascii "node"]) :=
    List.append_assoc _ _ _
  obtain ⟨read, got⟩ := address_zeros address
    (VarArray.byteRepr VarStr.byteRepr [ascii "node"])
  rw [shape]
  exact ⟨read, run_bind_ok.mpr ⟨_, _, Uint32.byteRepr_read _ _ _, run_bind_ok.mpr ⟨_, _, got,
    run_bind_ok.mpr ⟨_, _, services_zeros, rfl⟩⟩⟩⟩

end EnsicoinZeroMemory
