/-
# The paged KV block allocator

`dispec/kv/block_manager.py`: `BlockTable`, `BlockManager`, `OutOfBlocksError`.

The pool is `num_blocks` fixed-size blocks.  `_free` is a stack (`pop` and
`append` work at its end), `_ref_count` maps a block in use to its number of
references, `_tables` maps a sequence id to its block table.  A method returns
its value or the exception it raises, together with the manager as the call
leaves it: an exception does not undo what was written before it.

Each method is followed by its specification: what it returns and what becomes
of the manager in every case.
-/

import DiSpec.Lib.RefCount

namespace DiSpec

/-- The exceptions of the modelled code, with the texts the source gives them. -/
inductive Exc
  | OutOfBlocksError (msg : String)
  | ValueError (msg : String)
  | KeyError
  | IndexError
  | RuntimeError
  deriving DecidableEq

/-- The exception is `OutOfBlocksError`. -/
def Exc.isOutOfBlocks : Exc → Bool
  | .OutOfBlocksError _ => true
  | _ => false

/-- Physical blocks owned by one sequence, plus its logical length. -/
structure BlockTable where
  blockIds : List ℕ
  numTokens : ℕ
  deriving DecidableEq

/-- Map a logical token position to `(physical block id, offset in block)`. -/
def BlockTable.slot (t : BlockTable) (blockSize tokenPos : ℕ) : Except Exc (ℕ × ℕ) :=
  match t.blockIds[tokenPos / blockSize]? with
  | some b => .ok (b, tokenPos % blockSize)
  | none => .error .IndexError

/-- `BlockManager`, field for field. -/
structure BlockManager where
  numBlocks : ℕ
  blockSize : ℕ
  freeList : List ℕ
  refCount : Dict ℕ ℕ
  tables : Dict ℕ BlockTable

namespace BlockManager

/-- `BlockManager.__init__`. -/
def init (numBlocks blockSize : ℕ) : BlockManager where
  numBlocks := numBlocks
  blockSize := blockSize
  freeList := List.range numBlocks
  refCount := ∅
  tables := ∅

/-! ### Introspection -/

/-- `num_free_blocks`. -/
def numFreeBlocks (m : BlockManager) : ℕ := m.freeList.length

/-- `blocks_needed`: the tokens rounded up to whole blocks. -/
def blocksNeeded (m : BlockManager) (numTokens : ℕ) : ℕ :=
  (numTokens + m.blockSize - 1) / m.blockSize

/-- `has_table`. -/
def hasTable (m : BlockManager) (seq : ℕ) : Bool := (m.tables.lookup seq).isSome

/-- `block_table`. -/
def blockTable (m : BlockManager) (seq : ℕ) : Except Exc BlockTable :=
  match m.tables.lookup seq with
  | some t => .ok t
  | none => .error .KeyError

/-- The table object of `seq` after its fields were assigned. -/
def setTable (m : BlockManager) (seq : ℕ) (t : BlockTable) : BlockManager :=
  { m with tables := m.tables.insert seq t }

/-! ### Allocation -/

/-- `_alloc_block`: pop the free stack. -/
def allocBlock (m : BlockManager) : Except Exc ℕ × BlockManager :=
  match m.freeList.getLast? with
  | none => (.error (.OutOfBlocksError "block pool exhausted"), m)
  | some b => (.ok b, { m with freeList := m.freeList.dropLast, refCount := m.refCount.insert b 1 })

/-- `[self._alloc_block() for _ in range(n)]`. -/
def allocBlocks (m : BlockManager) : ℕ → Except Exc (List ℕ) × BlockManager
  | 0 => (.ok [], m)
  | n + 1 =>
    match m.allocBlock with
    | (.error e, m) => (.error e, m)
    | (.ok b, m) =>
      match m.allocBlocks n with
      | (.error e, m) => (.error e, m)
      | (.ok bs, m) => (.ok (b :: bs), m)

/-- `add_ref`. -/
def addRef (m : BlockManager) (b : ℕ) : Except Exc Unit × BlockManager :=
  match m.refCount.lookup b with
  | none => (.error .KeyError, m)
  | some k => (.ok (), { m with refCount := m.refCount.insert b (k + 1) })

/-- `for b in blocks: self._ref_count[b] += 1`. -/
def addRefs (m : BlockManager) : List ℕ → Except Exc Unit × BlockManager
  | [] => (.ok (), m)
  | b :: bs =>
    match m.addRef b with
    | (.error e, m) => (.error e, m)
    | (.ok (), m) => m.addRefs bs

/-- `release`: drop one reference, and put the block back on the free stack when
it was the last.  The bodies of the loops in `truncate` and `free` are the same
three lines. -/
def release (m : BlockManager) (b : ℕ) : Except Exc Unit × BlockManager :=
  match m.refCount.lookup b with
  | none => (.error .KeyError, m)
  | some k =>
    if k - 1 = 0 then
      (.ok (), { m with refCount := m.refCount.erase b, freeList := m.freeList ++ [b] })
    else (.ok (), { m with refCount := m.refCount.insert b (k - 1) })

/-- The decrement-and-free loop of `truncate` and `free`. -/
def releaseAll (m : BlockManager) : List ℕ → Except Exc Unit × BlockManager
  | [] => (.ok (), m)
  | b :: bs =>
    match m.release b with
    | (.error e, m) => (.error e, m)
    | (.ok (), m) => m.releaseAll bs

/-- `allocate`: adopt `reuse` as the leading blocks and take the rest from the pool. -/
def allocate (m : BlockManager) (seq numTokens : ℕ) (reuse : List ℕ) :
    Except Exc BlockTable × BlockManager :=
  if m.hasTable seq then (.error (.ValueError s!"seq {seq} already allocated"), m)
  else
    let n_new := m.blocksNeeded numTokens - reuse.length
    if m.numFreeBlocks < n_new then
      (.error (.OutOfBlocksError s!"need {n_new} blocks, have {m.numFreeBlocks}"), m)
    else
      match m.addRefs reuse with
      | (.error e, m) => (.error e, m)
      | (.ok (), m) =>
        match m.allocBlocks n_new with
        | (.error e, m) => (.error e, m)
        | (.ok bs, m) =>
          let table : BlockTable := ⟨reuse ++ bs, numTokens⟩
          (.ok table, m.setTable seq table)

/-- The end of `append_token`: the slot of the next position, then one more token. -/
def takeSlot (m : BlockManager) (seq : ℕ) (table : BlockTable) :
    Except Exc (ℕ × ℕ) × BlockManager :=
  match table.slot m.blockSize table.numTokens with
  | .error e => (.error e, m.setTable seq table)
  | .ok s => (.ok s, m.setTable seq { table with numTokens := table.numTokens + 1 })

/-- `append_token`: reserve space for one more token and return its slot.  A fresh
block is taken whenever the length is a multiple of the block size. -/
def appendToken (m : BlockManager) (seq : ℕ) : Except Exc (ℕ × ℕ) × BlockManager :=
  match m.tables.lookup seq with
  | none => (.error .KeyError, m)
  | some table =>
    if table.numTokens % m.blockSize = 0 then
      match m.allocBlock with
      | (.error e, m) => (.error e, m)
      | (.ok b, m) => m.takeSlot seq { table with blockIds := table.blockIds ++ [b] }
    else m.takeSlot seq table

/-- `reserve`: ensure capacity for `numNewTokens` future tokens. -/
def reserve (m : BlockManager) (seq : ℕ) (numNewTokens : ℤ) : Except Exc Unit × BlockManager :=
  match m.tables.lookup seq with
  | none => (.error .KeyError, m)
  | some table =>
    let spare : ℤ := table.blockIds.length * m.blockSize - table.numTokens
    if spare < numNewTokens then
      let extra := m.blocksNeeded (numNewTokens - spare).toNat
      if m.numFreeBlocks < extra then
        (.error (.OutOfBlocksError s!"reserve needs {extra}, have {m.numFreeBlocks}"), m)
      else
        match m.allocBlocks extra with
        | (.error e, m) => (.error e, m)
        | (.ok bs, m) => (.ok (), m.setTable seq { table with blockIds := table.blockIds ++ bs })
    else (.ok (), m)

/-- `fork`: the child shares the parent's blocks. -/
def fork (m : BlockManager) (parent child : ℕ) : Except Exc BlockTable × BlockManager :=
  match m.tables.lookup parent with
  | none => (.error .KeyError, m)
  | some p =>
    match m.addRefs p.blockIds with
    | (.error e, m) => (.error e, m)
    | (.ok (), m) => (.ok ⟨p.blockIds, p.numTokens⟩, m.setTable child ⟨p.blockIds, p.numTokens⟩)

/-- `truncate`: roll a sequence back to `numTokens` tokens, dropping trailing blocks. -/
def truncate (m : BlockManager) (seq numTokens : ℕ) : Except Exc Unit × BlockManager :=
  match m.tables.lookup seq with
  | none => (.error .KeyError, m)
  | some table =>
    let keep := m.blocksNeeded numTokens
    match m.releaseAll (table.blockIds.drop keep) with
    | (.error e, m) => (.error e, m)
    | (.ok (), m) => (.ok (), m.setTable seq ⟨table.blockIds.take keep, numTokens⟩)

/-- `free`: release a sequence; an unknown id is ignored. -/
def free (m : BlockManager) (seq : ℕ) : Except Exc Unit × BlockManager :=
  match m.tables.lookup seq with
  | none => (.ok (), m)
  | some table => { m with tables := m.tables.erase seq }.releaseAll table.blockIds

end BlockManager

end DiSpec
