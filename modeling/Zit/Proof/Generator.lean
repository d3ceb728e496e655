import Zit.Proof.Writer

/-!
# The chunks of a stream

What the generator of `get_chunks` yields is decided by the state the stream is in after each chunk:
it has failed exactly when the chunk is the last one and not full. So the chunks are slices of the
file (`getChunks_stream`), and the pieces those of all files together (`pieces_of_files`).
-/

set_option autoImplicit false

namespace Zit.TorrentWriter

open Lib Lib.IStream

namespace Generator

/-- On a good stream a chunk is what `take` gives, and a short one leaves the stream failed. -/
theorem readChunk_good (str : Bytes) (size : Nat) (buf data : Bytes) :
    readChunk size buf (goodAt str data) =
      (buf ++ data.take size,
        if size ≤ data.length then goodAt str (data.drop size) else ⟨str, [], true, true⟩) := by
  induction size generalizing buf data with
  | zero => simp [readChunk]
  | succ size ih =>
    cases data with
    | nil => simp [readChunk, IStream.get, good]
    | cons c cs =>
      rw [readChunk, get_good]
      dsimp only
      rw [ih]
      simp

theorem subsequent_good (str : Bytes) {m : Nat} (hm : 0 < m) (data : Bytes) (turns : Nat)
    (ht : data.length < turns) : subsequent m turns (goodAt str data) = chunks m data := by
  induction turns generalizing data with
  | zero => omega
  | succ turns ih =>
    rw [subsequent, if_neg (by simp), readChunk_good]
    dsimp only
    by_cases hne : data = []
    · simp [hne, chunks_nil hm]
    · have hlen : 0 < data.length := List.length_pos_iff.2 hne
      have htake : [] ++ data.take m ≠ [] :=
        List.ne_nil_of_length_pos (by simp only [List.nil_append, List.length_take]; omega)
      rw [if_pos htake, chunks_cons hm hne, List.nil_append]
      by_cases hle : m ≤ data.length
      · rw [if_pos hle, ih _ (by rw [List.length_drop]; omega)]
      · rw [if_neg hle, List.drop_of_length_le (by omega), chunks_nil hm]
        cases turns <;> simp [subsequent]

/-- The generator on a file that has just been opened. -/
theorem getChunks_stream (data : Bytes) (n : Nat) {m : Nat} (hm : 0 < m) :
    getChunks (IStream.ofStr data) n m = TorrentWriter.getChunks data n m := by
  unfold getChunks TorrentWriter.getChunks
  rw [show IStream.ofStr data = goodAt data data from rfl, readChunk_good]
  dsimp only
  rw [List.nil_append]
  congr 1
  · by_cases h : data.take n = []
    · rw [if_neg (by simp [h]), if_pos h]
    · rw [if_pos h, if_neg h]
  · by_cases hle : n ≤ data.length
    · rw [if_pos hle, subsequent_good data hm _ _ (Nat.lt_succ_self _)]
    · rw [if_neg hle, List.drop_of_length_le (by omega), chunks_nil hm]
      simp [subsequent]

section
variable {sha1 : Bytes → Sha1} {args : WriterArgs} (hpos : 0 < args.pieceLength.toNat)
include hpos

theorem addEntry_eq (fs : FileSystem) (l : Loc) :
    addEntry sha1 args fs l = TorrentWriter.addEntry sha1 args fs l := by
  funext st rel
  unfold addEntry TorrentWriter.addEntry
  cases fs.content (l ++ rel) with
  | none => rfl
  | some data =>
    dsimp only
    rw [getChunks_stream data _ hpos]

/-- The pieces of a directory are the hashes of consecutive chunks of the contents of its regular
files, one after the other; no byte is left out and no chunk is empty. -/
theorem pieces_of_files (name : Bytes) (fs : FileSystem) (l : Loc) (entries : List (List Name)) :
    (multiInfo sha1 args name fs l entries).lookup (ascii "pieces".toList) =
        some (.str (pieces sha1 args fs l entries)) ∧
      pieces sha1 args fs l entries = ((chunks args.pieceLength.toNat
        ((entries.filterMap fun rel => fs.content (l ++ rel)).flatten)).map
          fun chunk => (sha1 chunk).bytes).flatten ∧
      (chunks args.pieceLength.toNat
        ((entries.filterMap fun rel => fs.content (l ++ rel)).flatten)).flatten =
          (entries.filterMap fun rel => fs.content (l ++ rel)).flatten ∧
      ∀ chunk ∈ chunks args.pieceLength.toNat
        ((entries.filterMap fun rel => fs.content (l ++ rel)).flatten),
          chunk ≠ [] ∧ chunk.length ≤ args.pieceLength.toNat := by
  have hlookup : (multiInfo sha1 args name fs l entries).lookup (ascii "pieces".toList) =
      some (.str (pieces sha1 args fs l entries)) := by
    unfold pieces
    rw [addEntry_eq hpos]
    rfl
  have hfiles : (Data.filesBelow fs l entries).map (·.2) =
      entries.filterMap fun rel => fs.content (l ++ rel) := by
    rw [Data.filesBelow, List.map_filterMap]
    simp
  refine ⟨hlookup, ?_, chunks_flatten hpos _, fun chunk hchunk => ?_⟩
  · rw [multiInfo_eq hpos] at hlookup
    have hpieces : Element.str (hashText (hashes sha1 args.pieceLength.toNat
        ((Data.filesBelow fs l entries).map (·.2)).flatten)) =
        .str (pieces sha1 args fs l entries) := Option.some.inj hlookup
    rw [← Element.str.inj hpieces, hfiles, hashText, hashes, List.map_map]
    rfl
  · refine ⟨ne_nil_of_mem_chunks hpos hchunk, ?_⟩
    obtain ⟨i, -, rfl⟩ := List.mem_map.1 hchunk
    exact List.length_take_le _ _

end

/-- A file of one byte and one of two bytes. -/
def twoFiles : FileSystem :=
  FileSystem.put (FileSystem.put ⟨∅⟩ [[110]] (.file [1])) [[111]] (.file [2, 3])

/-- A hash that is the sum of the bytes. -/
def sumSha1 (data : Bytes) : Sha1 := ⟨List.replicate 20 data.sum, by simp⟩

/-- The first piece ends in the second file. -/
theorem pieces_of_files_two : twoFiles.content [[110]] = some [1] ∧
    twoFiles.content [[111]] = some [2, 3] ∧ chunks 2 [1, 2, 3] = [[1, 2], [3]] ∧
    pieces sumSha1 ⟨[97], [], 2, 0, [90]⟩ twoFiles [] [[[110]], [[111]]] =
      ((chunks 2 (([[[110]], [[111]]].filterMap fun rel => twoFiles.content ([] ++ rel)).flatten)).map
        fun chunk => (sumSha1 chunk).bytes).flatten :=
  ⟨by decide, by decide, by decide, (@pieces_of_files sumSha1 ⟨[97], [], 2, 0, [90]⟩ (by decide) [] twoFiles []
    [[[110]], [[111]]]).2.1⟩

end Generator

end Zit.TorrentWriter
