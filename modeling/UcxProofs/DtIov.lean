import UcxProofs.Status

/-!
Iteration over an IOV datatype, `ucp/dt/dt_iov.c` and `ucp/dt/datatype_iter.{c,inl}`. The IOV
list is the list of its buffers' bytes, each entry as long as its `length`; the message is their
concatenation. The iterator keeps the flat `offset` and the cursor `(iov_index, iov_offset)`
into the list.

Each loop is a recursion on the entries from the cursor on. Reading an entry past the end of
the list has no value (`none`): the list is all the memory the iterator is known to own. Sizes
are natural numbers; a `size_t` difference in the code is the truncated one, and the signed
offset of a seek is an integer.
-/

namespace UcxProofs.DtIov

/-- A `uct_iov_t` that `next_iov` fills: `length` bytes of the IOV entry `index` from `offset`
in it; its `stride` is `0` and `count` is `1`. -/
structure UctIov where
  index : ℕ
  offset : ℕ
  length : ℕ
  deriving DecidableEq, Repr

/-- The fields of `ucp_datatype_iter_t` that an IOV datatype uses. -/
structure UcpDatatypeIter where
  length : ℕ
  offset : ℕ
  iovIndex : ℕ
  iovOffset : ℕ
  deriving DecidableEq, Repr

/-- `ucp_datatype_iter_iov_init` for a message of `length` bytes. -/
def ucpDatatypeIterInitIov (length : ℕ) : UcpDatatypeIter := ⟨length, 0, 0, 0⟩

/-! ### `dt_iov.c` -/

/-- The loop of `ucp_dt_iov_gather` over the entries from the cursor on: the bytes it copies,
and the cursor it leaves. -/
def gatherLoop (length : ℕ) :
    List (List UInt8) → ℕ → ℕ → ℕ → Option (List UInt8 × ℕ × ℕ)
  | rest, lengthIt, iovOffset, iovcntOffset =>
    if lengthIt < length then
      match rest with
      | [] => none
      | item :: rest =>
        let itemReminder := item.length - iovOffset
        let itemLenToCopy := itemReminder - (lengthIt + itemReminder - length)
        let copied := (item.drop iovOffset).take itemLenToCopy
        if lengthIt + itemLenToCopy < length then
          (gatherLoop length rest (lengthIt + itemLenToCopy) 0 (iovcntOffset + 1)).map
            fun (dest, iovOffset, iovcntOffset) => (copied ++ dest, iovOffset, iovcntOffset)
        else some (copied, iovOffset + itemLenToCopy, iovcntOffset)
    else some ([], iovOffset, iovcntOffset)

/-- `ucp_dt_iov_gather`: `length` bytes from the cursor, and the cursor after them. The cursor
stops at the end of the entry where the bytes end. -/
def ucpDtIovGather (iov : List (List UInt8)) (length iovOffset iovcntOffset : ℕ) :
    Option (List UInt8 × ℕ × ℕ) :=
  gatherLoop length (iov.drop iovcntOffset) 0 iovOffset iovcntOffset

/-- The loop of `ucp_dt_iov_scatter` over the entries from the cursor on: the entries written,
the bytes written, and the cursor it leaves. -/
def scatterLoop (iovcnt : ℕ) (src : List UInt8) (length : ℕ) :
    List (List UInt8) → ℕ → ℕ → ℕ → Option (List (List UInt8) × ℕ × ℕ × ℕ)
  | rest, lengthIt, iovOffset, iovcntOffset =>
    if lengthIt < length ∧ iovcntOffset < iovcnt then
      match rest with
      | [] => none
      | item :: rest =>
        let itemLenToCopy := min (item.length - iovOffset) (length - lengthIt)
        let written := item.take iovOffset ++ (src.drop lengthIt).take itemLenToCopy ++
          item.drop (iovOffset + itemLenToCopy)
        if lengthIt + itemLenToCopy < length then
          (scatterLoop iovcnt src length rest (lengthIt + itemLenToCopy) 0 (iovcntOffset + 1)).map
            fun (rest, lengthIt, iovOffset, iovcntOffset) =>
              (written :: rest, lengthIt, iovOffset, iovcntOffset)
        else some (written :: rest, lengthIt + itemLenToCopy, iovOffset + itemLenToCopy, iovcntOffset)
    else some (rest, lengthIt, iovOffset, iovcntOffset)

/-- `ucp_dt_iov_scatter`: the IOV list with `length` bytes of `src` written from the cursor, the
number written, and the cursor after them. -/
def ucpDtIovScatter (iov : List (List UInt8)) (iovcnt : ℕ) (src : List UInt8)
    (length iovOffset iovcntOffset : ℕ) : Option (List (List UInt8) × ℕ × ℕ × ℕ) :=
  (scatterLoop iovcnt src length (iov.drop iovcntOffset) 0 iovOffset iovcntOffset).map
    fun (rest, lengthIt, iovOffset', iovcntOffset') =>
      (iov.take iovcntOffset ++ rest, lengthIt, iovOffset', iovcntOffset')

/-! ### Seeking -/

/-- The backward loop of `ucp_datatype_iter_iov_seek_always`: step back an entry and add its
length until the offset is not negative. Below entry `0` there is nothing to read. -/
def seekBackward (iov : List (List UInt8)) : ℕ → ℤ → Option (ℕ × ℤ)
  | 0, _ => none
  | iovIndex + 1, iovOffset =>
    match iov[iovIndex]? with
    | none => none
    | some item =>
      if iovOffset + item.length < 0 then seekBackward iov iovIndex (iovOffset + item.length)
      else some (iovIndex, iovOffset + item.length)

/-- The forward loop of `ucp_datatype_iter_iov_seek_always`: while the offset reaches the end of
the entry, take its length off and go to the next entry. -/
def seekForward : List (List UInt8) → ℕ → ℕ → Option (ℕ × ℕ)
  | [], _, _ => none
  | item :: rest, iovIndex, iovOffset =>
    if item.length ≤ iovOffset then seekForward rest (iovIndex + 1) (iovOffset - item.length)
    else some (iovIndex, iovOffset)

/-- `ucp_datatype_iter_iov_seek_always`. -/
def ucpDatatypeIterIovSeekAlways (iov : List (List UInt8)) (dtIter : UcpDatatypeIter)
    (offset : ℕ) : Option UcpDatatypeIter :=
  let iovOffset : ℤ := dtIter.iovOffset + ((offset : ℤ) - dtIter.offset)
  if iovOffset < 0 then
    (seekBackward iov dtIter.iovIndex iovOffset).map fun (iovIndex, iovOffset) =>
      { dtIter with offset := offset, iovIndex := iovIndex, iovOffset := iovOffset.toNat }
  else
    (seekForward (iov.drop dtIter.iovIndex) dtIter.iovIndex iovOffset.toNat).map
      fun (iovIndex, iovOffset) =>
        { dtIter with offset := offset, iovIndex := iovIndex, iovOffset := iovOffset }

/-- `ucp_datatype_iter_iov_seek`. -/
def ucpDatatypeIterIovSeek (iov : List (List UInt8)) (dtIter : UcpDatatypeIter) (offset : ℕ) :
    Option UcpDatatypeIter :=
  if offset = dtIter.offset then some dtIter else ucpDatatypeIterIovSeekAlways iov dtIter offset

/-- `ucp_datatype_iter_seek` for an IOV datatype. -/
def ucpDatatypeIterSeek (iov : List (List UInt8)) (dtIter : UcpDatatypeIter) (offset : ℕ) :
    Option UcpDatatypeIter :=
  ucpDatatypeIterIovSeek iov dtIter offset

/-! ### The operations of the iterator -/

/-- The loop of `ucp_datatype_iter_iov_next_iov` over the entries from the cursor on: the
segments, the length they make and the cursor of `next_iter`. An empty entry gives no segment. -/
def nextIovLoop (maxLength maxIterLength maxIov : ℕ) :
    List (List UInt8) → ℕ → ℕ → ℕ → ℕ → Option (List UctIov × ℕ × ℕ × ℕ)
  | rest, dstIovIndex, length, iovIndex, iovOffset =>
    if dstIovIndex < maxIov ∧ length < maxIterLength then
      match rest with
      | [] => none
      | srcIov :: rest =>
        if 0 < srcIov.length then
          let remainingSrc := srcIov.length - iovOffset
          let remainingDst := maxLength - length
          if remainingDst < remainingSrc then
            -- `max_length` ends inside the entry
            some ([⟨iovIndex, iovOffset, remainingDst⟩], length + remainingDst, iovIndex,
              iovOffset + remainingDst)
          else
            (nextIovLoop maxLength maxIterLength maxIov rest (dstIovIndex + 1)
              (length + remainingSrc) (iovIndex + 1) 0).map
              fun (iovs, next) => (⟨iovIndex, iovOffset, remainingSrc⟩ :: iovs, next)
        else nextIovLoop maxLength maxIterLength maxIov rest dstIovIndex length (iovIndex + 1) 0
    else some ([], length, iovIndex, iovOffset)

/-- `ucp_datatype_iter_iov_next_iov`: at most `max_iov` segments of at most `max_length` bytes
from the iterator on, and `next_iter`. -/
def ucpDatatypeIterIovNextIov (iov : List (List UInt8)) (dtIter : UcpDatatypeIter)
    (maxLength maxIov : ℕ) : Option (List UctIov × UcpDatatypeIter) :=
  if maxLength = 0 then some ([], dtIter)
  else
    let maxIterLength := min maxLength (dtIter.length - dtIter.offset)
    (nextIovLoop maxLength maxIterLength maxIov (iov.drop dtIter.iovIndex) 0 0 dtIter.iovIndex
      dtIter.iovOffset).map fun (iovs, length, iovIndex, iovOffset) =>
        (iovs, { dtIter with offset := dtIter.offset + length, iovIndex := iovIndex,
                             iovOffset := iovOffset })

/-- `ucp_datatype_iter_next_pack` for an IOV datatype: the packed bytes and `next_iter`. -/
def ucpDatatypeIterNextPack (iov : List (List UInt8)) (dtIter : UcpDatatypeIter)
    (maxLength : ℕ) : Option (List UInt8 × UcpDatatypeIter) :=
  let length := min (dtIter.length - dtIter.offset) maxLength
  (ucpDtIovGather iov length dtIter.iovOffset dtIter.iovIndex).map
    fun (dest, iovOffset, iovIndex) =>
      (dest, { dtIter with offset := dtIter.offset + length, iovIndex := iovIndex,
                           iovOffset := iovOffset })

/-- `SIZE_MAX`, the entry count `ucp_datatype_iter_unpack` gives `ucp_dt_iov_scatter`. -/
def sizeMax : ℕ := 2 ^ 64 - 1

/-- `ucp_datatype_iter_unpack` for an IOV datatype: the status, the IOV list with `src` written
at `offset`, and the iterator after it. -/
def ucpDatatypeIterUnpack (iov : List (List UInt8)) (dtIter : UcpDatatypeIter)
    (length offset : ℕ) (src : List UInt8) :
    Option (UcsStatus × List (List UInt8) × UcpDatatypeIter) :=
  if dtIter.length - offset < length then some (.errMessageTruncated, iov, dtIter)
  else do
    let dtIter ← ucpDatatypeIterIovSeek iov dtIter offset
    let (iov, unpackedLength, iovOffset, iovIndex) ←
      ucpDtIovScatter iov sizeMax src length dtIter.iovOffset dtIter.iovIndex
    some (.ok, iov, { dtIter with offset := dtIter.offset + unpackedLength, iovIndex := iovIndex,
                                  iovOffset := iovOffset })

/-- `ucp_datatype_iter_copy_position`. -/
def ucpDatatypeIterCopyPosition (dtIter srcDtIter : UcpDatatypeIter) : UcpDatatypeIter :=
  { dtIter with offset := srcDtIter.offset, iovIndex := srcDtIter.iovIndex,
                iovOffset := srcDtIter.iovOffset }

/-- `ucp_datatype_iter_is_end`. -/
def ucpDatatypeIterIsEnd (dtIter : UcpDatatypeIter) : Bool := dtIter.offset == dtIter.length

/-! ### Where the cursor conventions disagree -/

/-- **A seek to the end reads past the list, and `next_iov` after a pack makes no progress.**
`ucp_datatype_iter_seek` to `offset = length`, which its assertion admits, takes the forward loop
past the last entry and reads the entry after it. And a pack of the first entry of two leaves
`iov_offset` at the end of that entry; `next_iov` from there with one segment returns an empty
segment and advances nothing, though the message is not at its end. -/
theorem ucpDatatypeIter_cursor_at_entry_end :
    ucpDatatypeIterSeek [[1, 2, 3, 4]] (ucpDatatypeIterInitIov 4) 4 = none ∧
    (ucpDatatypeIterNextPack [[1, 2, 3, 4], [5, 6, 7, 8]] (ucpDatatypeIterInitIov 8) 4).map
        Prod.fst = some [1, 2, 3, 4] ∧
    ((ucpDatatypeIterNextPack [[1, 2, 3, 4], [5, 6, 7, 8]] (ucpDatatypeIterInitIov 8) 4).bind
        fun (_, nextIter) => ucpDatatypeIterIovNextIov [[1, 2, 3, 4], [5, 6, 7, 8]]
          (ucpDatatypeIterCopyPosition (ucpDatatypeIterInitIov 8) nextIter) 4 1) =
      some ([⟨0, 4, 0⟩], ⟨8, 4, 1, 0⟩) := by
  refine ⟨?_, ?_, ?_⟩ <;> decide

end UcxProofs.DtIov
