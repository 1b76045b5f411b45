/-
  JackOS.Kernel.Memory

  The arena allocator of kernel/memory.c on a flat byte memory.  The arena
  headers, the block descriptors and the links of the free lists are bytes of
  this memory, as in the source, so that a store to the wrong place would
  damage them.  One heap is the kernel's or one process's: `HeapEnv` has what
  `sys_malloc` looks up for it.

  The pool's mutex makes each call one step.  `malloc_page` is represented by
  its answer, and the page tables by the set of pages the heap owns.
-/

import JackOS.Base.Bytes
import JackOS.Base.Outcome
import JackOS.Lib.List

namespace JackOS
namespace Kernel

open Base Base.Mem Lib

/-! ## Links in memory -/

/-- `list_elem_t`: the word `prev` and behind it the word `next`. -/
def memLinks : LinkStore Mem Nat where
  next m e := le32 m (e + 4)
  prev m e := le32 m e
  setNext m e v := store32 m (e + 4) v
  setPrev m e v := store32 m e v
  null := 0
  valid a := a < 2 ^ 32
  apart x y := x + 8 ≤ y ∨ y + 8 ≤ x
  apart_symm := Or.symm
  apart_irrefl x h := by omega
  next_setNext_self _ _ _ h := le32_store32_self h
  next_setNext_of_apart _ _ _ _ h := le32_store32_of_disjoint (by omega)
  next_setPrev _ _ _ _ h := le32_store32_of_disjoint (by omega)
  prev_setPrev_self _ _ _ h := le32_store32_self h
  prev_setPrev_of_apart _ _ _ _ h := le32_store32_of_disjoint (by omega)
  prev_setNext _ _ _ _ h := le32_store32_of_disjoint (by omega)

/-! ## Arenas and block descriptors -/

def pgSize : Nat := 4096

/-- `sizeof(arena_t)`: `desc`, `free_cnt` and `large`. -/
def arenaSize : Nat := 12

/-- `MEM_UNIT_CNT`. -/
def memUnitCnt : Nat := 7

/-- `sizeof(mem_block_desc_t)`: `block_size`, `blocks_per_arena` and
    `free_list`. -/
def descSize : Nat := 24

/-- `K_HEAP_START`. -/
def kHeapStart : Nat := 0xC0100000

/-- `a->desc`. -/
def arenaDesc (m : Mem) (a : Nat) : Nat := le32 m a

/-- `a->free_cnt`. -/
def arenaFreeCnt (m : Mem) (a : Nat) : Nat := le32 m (a + 4)

def setArenaFreeCnt (m : Mem) (a v : Nat) : Mem := store32 m (a + 4) v

/-- `a->large`. -/
def arenaLarge (m : Mem) (a : Nat) : Nat := le32 m (a + 8)

/-- `d->block_size`. -/
def descBlockSize (m : Mem) (d : Nat) : Nat := le32 m d

/-- `d->blocks_per_arena`. -/
def descBlocksPerArena (m : Mem) (d : Nat) : Nat := le32 m (d + 4)

/-- `&d->free_list`. -/
def descFreeList (d : Nat) : ListT Nat := ⟨d + 8, d + 16⟩

/-- The rounds of `block_desc_init` from `desc_idx` on. -/
def blockDescInitFrom (descArray : Nat) : Nat → Nat → Nat → Mem → Mem
  | 0, _, _, m => m
  | left + 1, descIdx, blockSize, m =>
      let d := descArray + descSize * descIdx
      let m := store32 m d blockSize
      let m := store32 m (d + 4) ((pgSize - arenaSize) / blockSize)
      let m := listInit memLinks m (descFreeList d)
      -- block_size is a uint16_t
      blockDescInitFrom descArray left (descIdx + 1) (blockSize * 2 % 2 ^ 16) m

def blockDescInit (descArray : Nat) (m : Mem) : Mem :=
  blockDescInitFrom descArray memUnitCnt 0 16 m

def arena2block (m : Mem) (a idx : Nat) : Nat :=
  (a + arenaSize + idx * descBlockSize m (arenaDesc m a)) % 2 ^ 32

def block2arena (b : Nat) : Nat := b &&& 0xFFFFF000

/-! ## Heaps -/

/-- What the calls on one heap look up. -/
structure HeapEnv where
  /-- `running_thread()->pgdir == NULL`. -/
  kernel : Bool
  /-- `mem_pool->pool_size`. -/
  poolSize : Nat
  /-- `k_block_descs` or `cur->u_block_desc`. -/
  descs : Nat
  /-- A pool has at most half of a `uint16_t` number of pages, rounded up. -/
  poolSize_le : poolSize ≤ 2 ^ 15 * pgSize
  descs_pos : 0 < descs
  descs_le : descs + descSize * memUnitCnt ≤ 2 ^ 32

/-- The memory, and which pages (by number) the heap owns. -/
structure Heap where
  mem : Mem
  pages : Nat → Bool

/-- The heap owns `cnt` more pages from page `first` on. -/
def Heap.takePages (h : Heap) (first cnt : Nat) : Heap :=
  { h with pages := fun p => h.pages p || decide (first ≤ p ∧ p < first + cnt) }

/-- The heap no longer owns these pages. -/
def Heap.dropPages (h : Heap) (first cnt : Nat) : Heap :=
  { h with pages := fun p => h.pages p && !decide (first ≤ p ∧ p < first + cnt) }

/-- `malloc_page(pf, pg_cnt)` with the answer `g`. -/
def mallocPage (g : Option Nat) (pgCnt : Nat) (h : Heap) : Option Nat × Heap :=
  match g with
  | none => (none, h)
  | some a => (some a, h.takePages (a / pgSize) pgCnt)

/-- `mfree_page(pf, _vaddr, pg_cnt)`.  The address checks on the physical pages
    pass for pages the heap owns. -/
def mfreePage (vaddr pgCnt : Nat) (h : Heap) : Outcome Heap := do
  require (1 ≤ pgCnt ∧ vaddr % pgSize = 0)
  require (∀ k, k < pgCnt → h.pages (vaddr / pgSize + k) = true)
  .ok (h.dropPages (vaddr / pgSize) pgCnt)

/-- `DIV_CEILING(x, step)` on `uint32_t`. -/
def divCeiling (x step : Nat) : Nat := (x + step - 1) % 2 ^ 32 / step

/-- The pages `sys_malloc` asks for when it needs some. -/
def pageCnt (size : Nat) : Nat :=
  if size > 1024 then divCeiling ((size + arenaSize) % 2 ^ 32) pgSize else 1

/-- The search for the first descriptor whose blocks are large enough. -/
def descIdxFrom (m : Mem) (descs size : Nat) : Nat → Nat → Nat
  | 0, descIdx => descIdx
  | left + 1, descIdx =>
      if size ≤ descBlockSize m (descs + descSize * descIdx) then descIdx
      else descIdxFrom m descs size left (descIdx + 1)

/-- The loop that splits an arena into blocks, from block `blockIdx` on. -/
def splitArena (a : Nat) : Nat → Nat → Mem → Outcome Mem
  | 0, _, m => .ok m
  | left + 1, blockIdx, m => do
      let b := arena2block m a blockIdx
      let found ← elemFind memLinks m (descFreeList (arenaDesc m a)) b
      require (found = false)
      splitArena a left (blockIdx + 1) (listAppend memLinks m (descFreeList (arenaDesc m a)) b)

/-- Setting up the page `a` as an arena of the descriptor `d`. -/
def newArena (d a : Nat) (m : Mem) : Outcome Mem :=
  let m := fill m a 0 pgSize
  let m := store32 m a d
  let m := store32 m (a + 8) 0
  let m := setArenaFreeCnt m a (descBlocksPerArena m d)
  splitArena a (descBlocksPerArena m d) 0 m

/-- Taking the first block of the descriptor's free list. -/
def takeBlock (d : Nat) (h : Heap) : Option Nat × Heap :=
  let (b, m) := listPop memLinks h.mem (descFreeList d)
  let m := fill m b 0 (descBlockSize m d)
  let a := block2arena b
  (some b, { h with mem := setArenaFreeCnt m a ((arenaFreeCnt m a + 2 ^ 32 - 1) % 2 ^ 32) })

/-- `sys_malloc` of at most 1024 bytes. -/
def mallocSmall (env : HeapEnv) (g : Option Nat) (size : Nat) (h : Heap) :
    Outcome (Option Nat × Heap) :=
  let d := env.descs + descSize * descIdxFrom h.mem env.descs size memUnitCnt 0
  if listEmpty memLinks h.mem (descFreeList d) then
    match mallocPage g 1 h with
    | (none, h) => .ok (none, h)
    | (some a, h) => do
        let m ← newArena d a h.mem
        .ok (takeBlock d { h with mem := m })
  else .ok (takeBlock d h)

/-- `sys_malloc` of more than 1024 bytes. -/
def mallocLarge (g : Option Nat) (size : Nat) (h : Heap) : Outcome (Option Nat × Heap) :=
  let pgCnt := pageCnt size
  match mallocPage g pgCnt h with
  | (none, h) => .ok (none, h)
  | (some a, h) =>
      let m := fill h.mem a 0 (pgCnt * pgSize)
      let m := store32 m a 0
      let m := setArenaFreeCnt m a pgCnt
      let m := store32 m (a + 8) 1
      .ok (some (a + arenaSize), { h with mem := m })

/-- `sys_malloc(size)`; the result `none` is `NULL`. -/
def sysMalloc (env : HeapEnv) (g : Option Nat) (size : Nat) (h : Heap) :
    Outcome (Option Nat × Heap) :=
  if size = 0 ∨ env.poolSize ≤ size then .ok (none, h)
  else if size > 1024 then mallocLarge g size h
  else mallocSmall env g size h

/-- The loop that takes all blocks of an arena off the free list. -/
def removeBlocks (a : Nat) : Nat → Nat → Mem → Outcome Mem
  | 0, _, m => .ok m
  | left + 1, blockIdx, m => do
      let bb := arena2block m a blockIdx
      let found ← elemFind memLinks m (descFreeList (arenaDesc m a)) bb
      require (found = true)
      removeBlocks a left (blockIdx + 1) (listRemove memLinks m bb)

/-- `sys_free` of a block of a small arena `a`. -/
def freeSmall (a ptr : Nat) (h : Heap) : Outcome Heap :=
  let m := listAppend memLinks h.mem (descFreeList (arenaDesc h.mem a)) ptr
  let m := setArenaFreeCnt m a ((arenaFreeCnt m a + 1) % 2 ^ 32)
  let perArena := descBlocksPerArena m (arenaDesc m a)
  if arenaFreeCnt m a = perArena then do
    let m ← removeBlocks a perArena 0 m
    mfreePage a 1 { h with mem := m }
  else .ok { h with mem := m }

/-- `sys_free(ptr)`. -/
def sysFree (env : HeapEnv) (ptr : Nat) (h : Heap) : Outcome Heap := do
  require (ptr ≠ 0)
  require (env.kernel = true → kHeapStart ≤ ptr)
  let a := block2arena ptr
  require (arenaLarge h.mem a = 0 ∨ arenaLarge h.mem a = 1)
  if arenaDesc h.mem a = 0 ∧ arenaLarge h.mem a = 1 then
    mfreePage a (arenaFreeCnt h.mem a) h
  else freeSmall a ptr h

end Kernel
end JackOS
