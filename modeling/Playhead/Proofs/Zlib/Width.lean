import Playhead.Proofs.Zlib.Stored

/-!
# How wide codes are

No code of a table takes more than `Playhead.Zlib.maxCodeLength` bits, whatever lengths the table
was made for (`Playhead.Zlib.CodeTable.narrow_ofLengths`): the tree is cut off at that depth. So the
size of a stream can be bounded without working out its codes, as is done here for the stream of an
empty payload, which is not empty (`Playhead.Zlib.length_deflate_nil_le`).
-/

namespace Playhead.Zlib

/-- Bits fill at most as many bytes. -/
theorem Bits.length_toBytesFrom_le (done : Bytes) (bits : Bits) :
    (toBytesFrom done bits).length ≤ done.length + bits.length := by
  fun_induction toBytesFrom done bits with
  | case1 done => simp
  | case2 done b bits n ih =>
    simp only [List.length_cons, List.length_drop] at ih ⊢
    omega

/-! ### Codes -/

/-- A tree is not deeper than the room that it was given. -/
theorem Subtree.length_codes_grow_le {room depth : Nat} {pending : List (Nat × Nat)}
    {path : Bits} :
    ∀ entry ∈ (grow room depth pending).1.codes path, entry.2.length ≤ path.length + room := by
  induction room generalizing depth pending path with
  | zero =>
    rcases pending with _ | ⟨⟨length, value⟩, pending⟩
    · simp [grow, codes]
    · by_cases h : length ≤ depth <;> simp [grow, h, codes]
  | succ room ih =>
    rcases pending with _ | ⟨⟨length, value⟩, pending⟩
    · simp [grow, codes]
    by_cases h : length ≤ depth
    · simp [grow, h, codes]
    · rw [grow, if_neg h]
      simp only [codes, List.mem_append]
      rintro entry (hentry | hentry)
      all_goals
        have hdepth := ih entry hentry
        rw [List.length_cons] at hdepth
        omega

namespace CodeTable

/-- Whether no entry of a table is wider than a code may be. -/
def Narrow (table : CodeTable) : Prop :=
  ∀ symbol, (table.getD symbol []).length ≤ maxCodeLength

/-- A table stays narrow when a narrow code is put in it. -/
theorem Narrow.set {table : CodeTable} (h : table.Narrow) {bits : Bits}
    (hbits : bits.length ≤ maxCodeLength) (symbol : Nat) : Narrow (table.set! symbol bits) := by
  intro i
  have hi := h i
  simp only [Array.getD_eq_getD_getElem?, Array.set!_eq_setIfInBounds,
    Array.getElem?_setIfInBounds] at hi ⊢
  split
  · split
    · exact hbits
    · exact Nat.zero_le _
  · exact hi

/-- Codes that are made of lengths are narrow. -/
theorem narrow_ofLengths (lengths : List Nat) : (ofLengths lengths).Narrow := by
  refine List.foldlRecOn _ _ ?empty fun table htable entry hentry => ?entry
  case empty =>
    intro i
    rw [Array.getD_eq_getD_getElem?, Array.getElem?_replicate]
    split <;> exact Nat.zero_le _
  case entry =>
    refine htable.set ?_ entry.1
    exact (List.mem_append.1 hentry).elim (Subtree.length_codes_grow_le entry)
      (Subtree.length_codes_grow_le entry)

end CodeTable

/-! ### The stream of nothing -/

/-- The stream of an empty payload is short: it holds the end of a block, and a checksum. -/
theorem length_deflate_nil_le : (deflate []).length ≤ 24 := by
  have hpacked : (packedStream []).length ≤ 24 := by
    have hcode := CodeTable.narrow_ofLengths fixedContentLengths Piece.stopSymbol
    have hpieces : pieces [] = [] := rfl
    have hbits : (blocksBits 0 (blocks [] {} [] (pieces []))).length ≤ 18 := by
      simp only [hpieces, blocks, blocksBits, Block.bits, List.length_nil, codedUpTo, fixedBlock,
        fittedFrom]
      simp only [maxCodeLength] at hcode
      simp [Piece.bits, Piece.content, Piece.distance?, Mark.bits, Bits.ofNumber] at hcode ⊢
      omega
    have hbytes := Bits.length_toBytesFrom_le [] (blocksBits 0 (blocks [] {} [] (pieces [])))
    simp only [packedStream, stream, Bits.toBytes, List.length_append, Bytes.length_ofNat,
      List.length_cons, List.length_nil] at hbytes ⊢
    omega
  have hstored : (storedStream []).length ≤ 24 := by
    simp [storedStream, stream, storedBlocks, storedBlock, storedBody, littleEndian16]
  simp only [deflate]
  split
  · split
    · exact hpacked
    · exact hstored
  · exact hstored

end Playhead.Zlib
