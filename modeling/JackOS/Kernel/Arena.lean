/-
  JackOS.Kernel.Arena

  What the memory of a heap stands for.  A `View` lists the arenas with their
  kinds, the free list of each size class and the free counter of each small
  arena; `Rep` says that the memory and the owned pages represent a view.  The
  allocator's steps are then edits of the view, each with one lemma; the
  geometry of blocks inside pages is what keeps the edits apart.
-/

import JackOS.Kernel.Memory

namespace JackOS
namespace Kernel

open Base Base.Mem Base.LinkStore Lib

/-! ## Geometry -/

/-- `block_size` of class `i`. -/
def blockSize (i : Fin 7) : Nat := 16 * 2 ^ i.val

/-- `blocks_per_arena` of class `i`. -/
def blocksPerArena (i : Fin 7) : Nat := (pgSize - arenaSize) / blockSize i

/-- The descriptor of class `i`. -/
def descAddr (env : HeapEnv) (i : Fin 7) : Nat := env.descs + descSize * i.val

/-- Block `k` of the arena of class `i` at `a`. -/
def block (a : Nat) (i : Fin 7) (k : Nat) : Nat := a + arenaSize + k * blockSize i

theorem blockSize_bounds (i : Fin 7) : 16 ≤ blockSize i ∧ blockSize i ≤ 1024 := by
  revert i
  decide

theorem blocksPerArena_pos (i : Fin 7) : 0 < blocksPerArena i := by
  revert i
  decide

theorem blocksPerArena_lt (i : Fin 7) : blocksPerArena i < 2 ^ 32 := by
  revert i
  decide

theorem descAddr_bounds (env : HeapEnv) (i : Fin 7) :
    env.descs ≤ descAddr env i ∧ descAddr env i + 24 ≤ env.descs + 168
      ∧ env.descs + 168 ≤ 2 ^ 32 := by
  have hi := i.isLt
  have hle := env.descs_le
  simp only [descAddr, descSize, memUnitCnt] at hle ⊢
  omega

theorem descAddr_apart (env : HeapEnv) {i j : Fin 7} (h : i ≠ j) :
    descAddr env i + 24 ≤ descAddr env j ∨ descAddr env j + 24 ≤ descAddr env i := by
  have hij : i.val ≠ j.val := fun heq => h (Fin.ext heq)
  simp only [descAddr, descSize]
  omega

/-- A block lies behind the header, inside the page. -/
theorem block_bounds (a : Nat) {i : Fin 7} {k : Nat} (hk : k < blocksPerArena i) :
    a + 12 ≤ block a i k ∧ block a i k + blockSize i ≤ a + 4096 := by
  have h₁ : (k + 1) * blockSize i ≤ blocksPerArena i * blockSize i :=
    Nat.mul_le_mul_right _ hk
  have h₂ : blocksPerArena i * blockSize i ≤ pgSize - arenaSize := Nat.div_mul_le_self _ _
  rw [Nat.succ_mul] at h₁
  simp only [block, arenaSize, pgSize] at h₂ ⊢
  omega

/-- Different blocks of an arena do not overlap. -/
theorem block_apart (a : Nat) (i : Fin 7) {k k' : Nat} (h : k ≠ k') :
    block a i k + blockSize i ≤ block a i k' ∨ block a i k' + blockSize i ≤ block a i k := by
  rcases Nat.lt_or_gt_of_ne h with h | h
  · have := Nat.mul_le_mul_right (blockSize i) (Nat.succ_le_of_lt h)
    rw [Nat.succ_mul] at this
    exact .inl (by simp only [block]; omega)
  · have := Nat.mul_le_mul_right (blockSize i) (Nat.succ_le_of_lt h)
    rw [Nat.succ_mul] at this
    exact .inr (by simp only [block]; omega)

theorem block_injective (a : Nat) (i : Fin 7) : Function.Injective (block a i) := by
  intro k k' h
  by_contra hne
  have hb := (blockSize_bounds i).1
  rcases block_apart a i hne with h' | h' <;> omega

/-- The mask of `block2arena` rounds down to the page. -/
theorem block2arena_eq {b : Nat} (hb : b < 2 ^ 32) : block2arena b = b / 4096 * 4096 := by
  have hdiv : block2arena b / 4096 = b / 4096 := by
    have h : block2arena b / 2 ^ 12 = (b / 2 ^ 12) &&& (2 ^ 20 - 1) := by
      rw [block2arena, ← Nat.shiftRight_eq_div_pow, ← Nat.shiftRight_eq_div_pow,
        Nat.shiftRight_and_distrib]
      rfl
    rw [Nat.and_two_pow_sub_one_eq_mod] at h
    omega
  have hmod : block2arena b % 4096 = 0 := by
    have h : block2arena b % 2 ^ 12 = (b % 2 ^ 12) &&& (0xFFFFF000 % 2 ^ 12) := by
      rw [block2arena, Nat.and_mod_two_pow]
    have h0 : (0xFFFFF000 % 2 ^ 12 : Nat) = 0 := by decide
    rw [h0, Nat.and_zero] at h
    exact h
  omega

theorem block2arena_of_mem_page {a b : Nat} (ha : a % 4096 = 0) (hlt : a + 4096 ≤ 2 ^ 32)
    (h₁ : a ≤ b) (h₂ : b < a + 4096) : block2arena b = a := by
  rw [block2arena_eq (by omega)]
  omega

/-! ## Views -/

/-- What an arena is used for: blocks of one class, or one large piece. -/
inductive Kind where
  | small (i : Fin 7)
  | large (pageCnt : Nat)
deriving DecidableEq

def Kind.pages : Kind → Nat
  | small _ => 1
  | large n => n

@[simp] theorem Kind.pages_small (i : Fin 7) : (Kind.small i).pages = 1 := rfl
@[simp] theorem Kind.pages_large (n : Nat) : (Kind.large n).pages = n := rfl

/-- What the memory of a heap stands for. -/
structure View where
  /-- The arenas, by base address. -/
  ar : Nat → Option Kind
  /-- The free lists, by size class. -/
  fl : Fin 7 → List Nat
  /-- The `free_cnt` of the small arenas. -/
  fc : Nat → Nat

/-- `x` is a block of an arena of class `i`. -/
def View.IsBlock (v : View) (i : Fin 7) (x : Nat) : Prop :=
  ∃ a k, v.ar a = some (.small i) ∧ k < blocksPerArena i ∧ x = block a i k

def View.setFree (v : View) (i : Fin 7) (xs : List Nat) : View :=
  { v with fl := Function.update v.fl i xs }

def View.setCnt (v : View) (a c : Nat) : View :=
  { v with fc := Function.update v.fc a c }

def View.setArena (v : View) (a : Nat) (k : Option Kind) : View :=
  { v with ar := Function.update v.ar a k }

@[simp] theorem View.setFree_ar (v : View) (i : Fin 7) (xs : List Nat) :
    (v.setFree i xs).ar = v.ar := rfl
@[simp] theorem View.setFree_fc (v : View) (i : Fin 7) (xs : List Nat) :
    (v.setFree i xs).fc = v.fc := rfl
@[simp] theorem View.setFree_fl (v : View) (i : Fin 7) (xs : List Nat) :
    (v.setFree i xs).fl = Function.update v.fl i xs := rfl
@[simp] theorem View.setCnt_ar (v : View) (a c : Nat) : (v.setCnt a c).ar = v.ar := rfl
@[simp] theorem View.setCnt_fl (v : View) (a c : Nat) : (v.setCnt a c).fl = v.fl := rfl
@[simp] theorem View.setCnt_fc (v : View) (a c : Nat) :
    (v.setCnt a c).fc = Function.update v.fc a c := rfl
@[simp] theorem View.setArena_ar (v : View) (a : Nat) (k : Option Kind) :
    (v.setArena a k).ar = Function.update v.ar a k := rfl
@[simp] theorem View.setArena_fl (v : View) (a : Nat) (k : Option Kind) :
    (v.setArena a k).fl = v.fl := rfl
@[simp] theorem View.setArena_fc (v : View) (a : Nat) (k : Option Kind) :
    (v.setArena a k).fc = v.fc := rfl

theorem View.setFree_setFree (v : View) (i : Fin 7) (xs ys : List Nat) :
    (v.setFree i xs).setFree i ys = v.setFree i ys := by
  simp [View.setFree]

theorem View.setFree_self (v : View) (i : Fin 7) : v.setFree i (v.fl i) = v := by
  simp [View.setFree]

/-- Where the arenas lie. -/
structure Placed (env : HeapEnv) (ar : Nat → Option Kind) : Prop where
  base : ∀ a k, ar a = some k →
    a % 4096 = 0 ∧ 0 < a ∧ a + 4096 * k.pages ≤ 2 ^ 32 ∧ 0 < k.pages
  kernel : ∀ a k, ar a = some k → env.kernel = true → kHeapStart ≤ a
  descs : ∀ a k, ar a = some k →
    env.descs + 168 ≤ a ∨ a + 4096 * k.pages ≤ env.descs
  disj : ∀ a k a' k', ar a = some k → ar a' = some k' → a ≠ a' →
    a + 4096 * k.pages ≤ a' ∨ a' + 4096 * k'.pages ≤ a

/-- The free lists, by size class. -/
abbrev freeLists (env : HeapEnv) : Fin 7 → ListT Nat := fun i => descFreeList (descAddr env i)

/-- The heap `h` represents the view `v`. -/
structure Rep (env : HeapEnv) (h : Heap) (v : View) : Prop where
  placed : Placed env v.ar
  owned : ∀ p, h.pages p = true ↔
    ∃ a k, v.ar a = some k ∧ a / 4096 ≤ p ∧ p < a / 4096 + k.pages
  small : ∀ a i, v.ar a = some (.small i) → arenaDesc h.mem a = descAddr env i
    ∧ arenaFreeCnt h.mem a = v.fc a ∧ arenaLarge h.mem a = 0
  large : ∀ a n, v.ar a = some (.large n) → arenaDesc h.mem a = 0
    ∧ arenaFreeCnt h.mem a = n ∧ arenaLarge h.mem a = 1
  desc : ∀ i, descBlockSize h.mem (descAddr env i) = blockSize i
    ∧ descBlocksPerArena h.mem (descAddr env i) = blocksPerArena i
  lists : memLinks.Family h.mem (freeLists env) v.fl
  node : ∀ i x, x ∈ v.fl i → v.IsBlock i x

variable {env : HeapEnv} {h : Heap} {v : View} {a x : Nat} {i : Fin 7}

/-! ## Blocks of placed arenas -/

theorem Placed.page (hp : Placed env v.ar) (ha : v.ar a = some (.small i)) :
    a % 4096 = 0 ∧ 0 < a ∧ a + 4096 ≤ 2 ^ 32 := by
  obtain ⟨h₁, h₂, h₃, -⟩ := hp.base _ _ ha
  exact ⟨h₁, h₂, by simpa using h₃⟩

/-- A block belongs to one arena, and lies behind its header. -/
theorem Placed.isBlock_bounds (hp : Placed env v.ar) (hx : v.IsBlock i x) :
    ∃ a, v.ar a = some (.small i) ∧ block2arena x = a ∧ a % 4096 = 0
      ∧ a + 12 ≤ x ∧ x + blockSize i ≤ a + 4096 ∧ a + 4096 ≤ 2 ^ 32 := by
  obtain ⟨a, k, ha, hk, rfl⟩ := hx
  obtain ⟨h₁, -, h₃⟩ := hp.page ha
  obtain ⟨hlo, hhi⟩ := block_bounds a hk
  have hs := (blockSize_bounds i).1
  exact ⟨a, ha, block2arena_of_mem_page h₁ h₃ (by omega) (by omega), h₁, hlo, hhi, h₃⟩

/-- Two blocks do not overlap. -/
theorem Placed.blocks_apart (hp : Placed env v.ar) {j : Fin 7} {y : Nat} (hx : v.IsBlock i x)
    (hy : v.IsBlock j y) (hne : x ≠ y) : x + blockSize i ≤ y ∨ y + blockSize j ≤ x := by
  obtain ⟨a, k, ha, hk, rfl⟩ := hx
  obtain ⟨b, l, hb, hl, rfl⟩ := hy
  obtain ⟨hxa, hxb⟩ := block_bounds a hk
  obtain ⟨hya, hyb⟩ := block_bounds b hl
  by_cases hab : a = b
  · subst hab
    obtain rfl : i = j := by
      rw [ha] at hb
      cases hb
      rfl
    exact block_apart a i fun hkl => hne (hkl ▸ rfl)
  · have := hp.disj _ _ _ _ ha hb hab
    simp only [Kind.pages_small] at this
    omega

/-- A block is apart from every arena header and from the descriptors. -/
theorem Placed.block_header (hp : Placed env v.ar) (hx : v.IsBlock i x) {b : Nat} {k : Kind}
    (hb : v.ar b = some k) : b + 12 ≤ x ∨ x + blockSize i ≤ b := by
  obtain ⟨a, l, ha, hl, rfl⟩ := hx
  obtain ⟨hlo, hhi⟩ := block_bounds a hl
  by_cases hab : a = b
  · subst hab
    exact .inl hlo
  · have := hp.disj _ _ _ _ ha hb hab
    have hpos := (hp.base _ _ hb).2.2.2
    simp only [Kind.pages_small] at this
    omega

theorem Placed.block_descs (hp : Placed env v.ar) (hx : v.IsBlock i x) :
    env.descs + 168 ≤ x ∨ x + blockSize i ≤ env.descs := by
  obtain ⟨a, k, ha, hk, rfl⟩ := hx
  obtain ⟨hlo, hhi⟩ := block_bounds a hk
  have := hp.descs _ _ ha
  simp only [Kind.pages_small] at this
  omega

/-- Two blocks, or one block seen in two classes. -/
theorem Placed.isBlock_class (hp : Placed env v.ar) {j : Fin 7} (hx : v.IsBlock i x)
    (hy : v.IsBlock j x) : i = j := by
  obtain ⟨a, ha, hab, -⟩ := hp.isBlock_bounds hx
  obtain ⟨b, hb, hbb, -⟩ := hp.isBlock_bounds hy
  obtain rfl : a = b := hab.symm.trans hbb
  rw [ha] at hb
  cases hb
  rfl

/-- The nodes of the free lists: sentinels in the descriptors, and blocks. -/
theorem freeLists_node {xs : List Nat} {z : Nat} (hz : z ∈ (freeLists env i).nodes xs) :
    z = descAddr env i + 8 ∨ z = descAddr env i + 16 ∨ z ∈ xs := by
  rcases Anchor.mem_nodes.1 hz with hz | hz | hz
  · exact .inl hz
  · exact .inr (.inr hz)
  · exact .inr (.inl hz)

/-! ## Frames -/

/-- The bytes the representation depends on. -/
def Used (env : HeapEnv) (v : View) (x : Nat) : Prop :=
  (env.descs ≤ x ∧ x < env.descs + 168)
    ∨ (∃ a k, v.ar a = some k ∧ a ≤ x ∧ x < a + 12)
    ∨ ∃ i y, y ∈ v.fl i ∧ y ≤ x ∧ x < y + 8

theorem header_eq {m m' : Mem} {b : Nat} (hm : ∀ x, b ≤ x → x < b + 12 → m' x = m x) :
    arenaDesc m' b = arenaDesc m b ∧ arenaFreeCnt m' b = arenaFreeCnt m b
      ∧ arenaLarge m' b = arenaLarge m b :=
  ⟨le32_eq_of_outside fun x h₁ h₂ => hm x h₁ (by omega),
    le32_eq_of_outside fun x h₁ h₂ => hm x (by omega) (by omega),
    le32_eq_of_outside fun x h₁ h₂ => hm x (by omega) (by omega)⟩

theorem descWords_eq {m m' : Mem} {d : Nat} (hm : ∀ x, d ≤ x → x < d + 8 → m' x = m x) :
    descBlockSize m' d = descBlockSize m d
      ∧ descBlocksPerArena m' d = descBlocksPerArena m d :=
  ⟨le32_eq_of_outside fun x h₁ h₂ => hm x h₁ (by omega),
    le32_eq_of_outside fun x h₁ h₂ => hm x (by omega) (by omega)⟩

theorem links_eq {m m' : Mem} {z : Nat} (hm : ∀ x, z ≤ x → x < z + 8 → m' x = m x) :
    memLinks.next m' z = memLinks.next m z ∧ memLinks.prev m' z = memLinks.prev m z :=
  ⟨le32_eq_of_outside fun x h₁ h₂ => hm x (by omega) (by omega),
    le32_eq_of_outside fun x h₁ h₂ => hm x h₁ (by omega)⟩

/-- Writes to other bytes keep the representation. -/
theorem Rep.frame (R : Rep env h v) {m : Mem} (hm : ∀ x, Used env v x → m x = h.mem x) :
    Rep env { h with mem := m } v := by
  have hhdr : ∀ b k, v.ar b = some k → ∀ x, b ≤ x → x < b + 12 → m x = h.mem x :=
    fun b k hb x h₁ h₂ => hm x (.inr (.inl ⟨b, k, hb, h₁, h₂⟩))
  have hdesc : ∀ i : Fin 7, ∀ x, descAddr env i ≤ x → x < descAddr env i + 24 → m x = h.mem x :=
    fun i x h₁ h₂ => hm x (.inl (by have := descAddr_bounds env i; omega))
  refine ⟨R.placed, R.owned, fun b j hb => ?_, fun b n hb => ?_, fun j => ?_, ?_, R.node⟩
  · obtain ⟨h₁, h₂, h₃⟩ := header_eq (hhdr b _ hb)
    rw [h₁, h₂, h₃]
    exact R.small b j hb
  · obtain ⟨h₁, h₂, h₃⟩ := header_eq (hhdr b _ hb)
    rw [h₁, h₂, h₃]
    exact R.large b n hb
  · obtain ⟨h₁, h₂⟩ := descWords_eq fun x h₁ h₂ => hdesc j x h₁ (by omega)
    rw [h₁, h₂]
    exact R.desc j
  · refine R.lists.frame fun j z hz => links_eq fun x h₁ h₂ => ?_
    rcases freeLists_node hz with rfl | rfl | hz
    · exact hdesc j x (by omega) (by omega)
    · exact hdesc j x (by omega) (by omega)
    · exact hm x (.inr (.inr ⟨j, z, hz, h₁, h₂⟩))

/-- Editing links writes the cells of the edited nodes only. -/
theorem edits_outside {N : Set Nat} {m m' : Mem} (hed : Edits memLinks N m m') {x : Nat}
    (hx : ∀ z ∈ N, x < z ∨ z + 8 ≤ x) : m' x = m x := by
  refine hed.induct (R := fun m m' => m' x = m x) rfl ?_ ?_
  · intro t z y ht hz
    have := hx z hz
    rw [← ht]
    exact store32_outside (by omega)
  · intro t z y ht hz
    have := hx z hz
    rw [← ht]
    exact store32_outside (by omega)

/-! ## Edits of the view -/

/-- A list operation on class `i` that writes nodes of its list and the block
    `e`. -/
theorem Rep.edit (R : Rep env h v) {e : Nat} {m : Mem} {ys : List Nat} (he : v.IsBlock i e)
    (hout : ∀ j, j ≠ i → e ∉ v.fl j)
    (hk : memLinks.Holds m (freeLists env i) ys)
    (hed : Edits memLinks {z | z ∈ (freeLists env i).nodes (v.fl i) ∨ z = e} h.mem m)
    (hys : ∀ y ∈ ys, y ∈ v.fl i ∨ y = e) :
    Rep env { h with mem := m } (v.setFree i ys) := by
  have hp := R.placed
  have hcell : ∀ z, z ∈ (freeLists env i).nodes (v.fl i) ∨ z = e →
      z = descAddr env i + 8 ∨ z = descAddr env i + 16 ∨ v.IsBlock i z := by
    rintro z (hz | rfl)
    · exact (freeLists_node hz).imp id (Or.imp id (R.node i z))
    · exact .inr (.inr he)
  -- headers and descriptor words are none of the written cells
  have hhdr : ∀ b k, v.ar b = some k → ∀ x, b ≤ x → x < b + 12 → m x = h.mem x := by
    intro b k hb x h₁ h₂
    refine edits_outside hed fun z hz => ?_
    have hd := descAddr_bounds env i
    have hbd := hp.descs b k hb
    have hbp := (hp.base b k hb).2.2.2
    rcases hcell z hz with rfl | rfl | hz
    · omega
    · omega
    · have := hp.block_header hz hb
      have := (blockSize_bounds i).1
      omega
  have hdesc : ∀ j : Fin 7, ∀ x, descAddr env j ≤ x → x < descAddr env j + 8 → m x = h.mem x := by
    intro j x h₁ h₂
    refine edits_outside hed fun z hz => ?_
    have hd := descAddr_bounds env i
    have hdj := descAddr_bounds env j
    have hij : i = j ∨ descAddr env i + 24 ≤ descAddr env j
        ∨ descAddr env j + 24 ≤ descAddr env i := by
      by_cases h : i = j
      · exact .inl h
      · exact .inr (descAddr_apart env h)
    rcases hcell z hz with rfl | rfl | hz
    · rcases hij with rfl | hij <;> omega
    · rcases hij with rfl | hij <;> omega
    · have := hp.block_descs hz
      have := (blockSize_bounds i).1
      omega
  refine ⟨hp, R.owned, fun b j hb => ?_, fun b n hb => ?_, fun j => ?_, ?_, fun j x hx => ?_⟩
  · obtain ⟨h₁, h₂, h₃⟩ := header_eq (hhdr b _ hb)
    rw [h₁, h₂, h₃]
    exact R.small b j hb
  · obtain ⟨h₁, h₂, h₃⟩ := header_eq (hhdr b _ hb)
    rw [h₁, h₂, h₃]
    exact R.large b n hb
  · obtain ⟨h₁, h₂⟩ := descWords_eq (hdesc j)
    rw [h₁, h₂]
    exact R.desc j
  · refine R.lists.replace hk hed (fun j hj z hz => ?_) hys
    have hd := descAddr_bounds env j
    have hs := (blockSize_bounds i).1
    have hed := hp.block_descs he
    rcases freeLists_node hz with rfl | rfl | hz
    · show e + 8 ≤ _ ∨ _
      omega
    · show e + 8 ≤ _ ∨ _
      omega
    · have hne : e ≠ z := fun heq => hout j hj (heq ▸ hz)
      have hz' := hp.blocks_apart he (R.node j z hz) hne
      have hsj := (blockSize_bounds j).1
      show e + 8 ≤ z ∨ z + 8 ≤ e
      omega
  · by_cases hj : j = i
    · subst hj
      rw [View.setFree_fl, Function.update_self] at hx
      rcases hys x hx with hx | rfl
      · exact R.node j x hx
      · exact he
    · rw [View.setFree_fl, Function.update_of_ne hj] at hx
      exact R.node j x hx

/-- A block on no free list is fresh for every one of them. -/
theorem Rep.fresh (R : Rep env h v) {e : Nat} {j : Fin 7} (he : v.IsBlock i e)
    (hout : e ∉ v.fl j) : memLinks.Fresh (freeLists env j) (v.fl j) e := by
  obtain ⟨a, ha, -, -, h₁, h₂, h₃⟩ := R.placed.isBlock_bounds he
  have hs := (blockSize_bounds i).1
  have hsj := (blockSize_bounds j).1
  refine ⟨?_, ?_, fun z hz => ?_⟩
  · show e < 2 ^ 32
    omega
  · show e ≠ 0
    omega
  · have hd := descAddr_bounds env j
    have hed := R.placed.block_descs he
    rcases freeLists_node hz with rfl | rfl | hz
    · show _ ∨ e + 8 ≤ _
      omega
    · show _ ∨ e + 8 ≤ _
      omega
    · have hne : z ≠ e := fun heq => hout (heq ▸ hz)
      have := R.placed.blocks_apart (R.node j z hz) he hne
      show z + 8 ≤ e ∨ e + 8 ≤ z
      omega

/-- A block is on the free list of its own class only. -/
theorem Rep.not_mem_other (R : Rep env h v) {e : Nat} {j : Fin 7} (he : v.IsBlock i e)
    (hj : j ≠ i) : e ∉ v.fl j :=
  fun hmem => hj (R.placed.isBlock_class (R.node j e hmem) he)

theorem Rep.append (R : Rep env h v) {e : Nat} (he : v.IsBlock i e) (hout : e ∉ v.fl i) :
    Rep env { h with mem := listAppend memLinks h.mem (freeLists env i) e }
      (v.setFree i (v.fl i ++ [e])) := by
  obtain ⟨hk, hed⟩ := listAppend_spec (R.lists.holds i) (R.fresh he hout)
  exact R.edit he (fun j hj => R.not_mem_other he hj) hk hed (by simp)

theorem Rep.remove (R : Rep env h v) {e : Nat} {xs ys : List Nat}
    (hfl : v.fl i = xs ++ e :: ys) :
    Rep env { h with mem := listRemove memLinks h.mem e } (v.setFree i (xs ++ ys)) := by
  obtain ⟨hk, hed⟩ := listRemove_spec (hfl ▸ R.lists.holds i)
  have he : v.IsBlock i e := R.node i e (by simp [hfl])
  refine R.edit he (fun j hj => R.not_mem_other he hj) hk (hed.mono fun x hx => ?_) ?_
  · exact .inl (hfl ▸ hx)
  · intro y hy
    rw [hfl]
    simp only [List.mem_append, List.mem_cons] at hy ⊢
    tauto

theorem Rep.pop (R : Rep env h v) {e : Nat} {xs : List Nat} (hfl : v.fl i = e :: xs) :
    (listPop memLinks h.mem (freeLists env i)).1 = e
      ∧ Rep env { h with mem := (listPop memLinks h.mem (freeLists env i)).2 }
        (v.setFree i xs) := by
  have hhead := (hfl ▸ R.lists.holds i : memLinks.Holds h.mem _ (e :: xs)).next_head
  have hfl' : v.fl i = [] ++ e :: xs := hfl
  simp only [listPop, hhead]
  exact ⟨trivial, R.remove hfl'⟩

/-- Setting the counter of a small arena. -/
theorem Rep.setCnt (R : Rep env h v) {c : Nat} (ha : v.ar a = some (.small i))
    (hc : c < 2 ^ 32) :
    Rep env { h with mem := setArenaFreeCnt h.mem a c } (v.setCnt a c) := by
  have hp := R.placed
  have hout : ∀ x, (x < a + 4 ∨ a + 8 ≤ x) → setArenaFreeCnt h.mem a c x = h.mem x :=
    fun x hx => store32_outside (by omega)
  have hother : ∀ b k, v.ar b = some k → b ≠ a → ∀ x, b ≤ x → x < b + 12 →
      setArenaFreeCnt h.mem a c x = h.mem x := by
    intro b k hb hne x h₁ h₂
    have hdj := hp.disj _ _ _ _ hb ha hne
    have hpos := (hp.base _ _ hb).2.2.2
    simp only [Kind.pages_small] at hdj
    exact hout x (by omega)
  have hbefore := hp.descs _ _ ha
  simp only [Kind.pages_small] at hbefore
  refine ⟨hp, R.owned, fun b j hb => ?_, fun b n hb => ?_, fun j => ?_, ?_, R.node⟩
  · by_cases hba : b = a
    · subst hba
      obtain ⟨h₁, -, h₃⟩ := R.small b j hb
      refine ⟨?_, ?_, ?_⟩
      · rw [← h₁]
        exact le32_eq_of_outside fun x h₁ h₂ => hout x (by omega)
      · rw [View.setCnt_fc, Function.update_self]
        exact le32_store32_self hc
      · rw [← h₃]
        exact le32_eq_of_outside fun x h₁ h₂ => hout x (by omega)
    · obtain ⟨h₁, h₂, h₃⟩ := header_eq (hother b _ hb hba)
      rw [h₁, h₂, h₃, View.setCnt_fc, Function.update_of_ne hba]
      exact R.small b j hb
  · have hba : b ≠ a := by
      rintro rfl
      rw [View.setCnt_ar, ha] at hb
      cases hb
    obtain ⟨h₁, h₂, h₃⟩ := header_eq (hother b _ hb hba)
    rw [h₁, h₂, h₃]
    exact R.large b n hb
  · have hd := descAddr_bounds env j
    have hkeep : ∀ x, descAddr env j ≤ x → x < descAddr env j + 8 →
        setArenaFreeCnt h.mem a c x = h.mem x := fun x h₁ h₂ => hout x (by omega)
    obtain ⟨h₁, h₂⟩ := descWords_eq hkeep
    rw [h₁, h₂]
    exact R.desc j
  · refine R.lists.frame fun j z hz => links_eq fun x h₁ h₂ => hout x ?_
    have hd := descAddr_bounds env j
    rcases freeLists_node hz with rfl | rfl | hz
    · omega
    · omega
    · have := hp.block_header (R.node j z hz) ha
      have := (blockSize_bounds j).1
      omega

/-- A new arena on pages the heap did not own: its header is set, and outside
    its pages nothing is written. -/
theorem Rep.addArena (R : Rep env h v) {k : Kind} {m : Mem} {c : Nat}
    (hplace : Placed env (Function.update v.ar a (some k))) (hnew : v.ar a = none)
    (hout : ∀ x, (x < a ∨ a + 4096 * k.pages ≤ x) → m x = h.mem x)
    (hsmall : ∀ i, k = .small i → arenaDesc m a = descAddr env i ∧ arenaFreeCnt m a = c
      ∧ arenaLarge m a = 0)
    (hlarge : ∀ n, k = .large n → arenaDesc m a = 0 ∧ arenaFreeCnt m a = n
      ∧ arenaLarge m a = 1) :
    Rep env { h.takePages (a / 4096) k.pages with mem := m }
      ((v.setArena a (some k)).setCnt a c) := by
  have hp := R.placed
  have ha : Function.update v.ar a (some k) a = some k := Function.update_self _ _ _
  have hold : ∀ b j, v.ar b = some j → b ≠ a ∧ Function.update v.ar a (some k) b = some j := by
    intro b j hb
    have hne : b ≠ a := by
      rintro rfl
      rw [hnew] at hb
      cases hb
    exact ⟨hne, by rwa [Function.update_of_ne hne]⟩
  have hframe : Rep env { h with mem := m } v := by
    refine R.frame fun x hx => hout x ?_
    have hda := hplace.descs _ _ ha
    rcases hx with hx | ⟨b, j, hb, h₁, h₂⟩ | ⟨i, y, hy, h₁, h₂⟩
    · omega
    · obtain ⟨hne, hb'⟩ := hold b j hb
      have hdj := hplace.disj _ _ _ _ hb' ha hne
      have hpos := (hp.base _ _ hb).2.2.2
      omega
    · obtain ⟨b, hb, -, -, h₃, h₄, -⟩ := hp.isBlock_bounds (R.node i y hy)
      obtain ⟨hne, hb'⟩ := hold b _ hb
      have hdj := hplace.disj _ _ _ _ hb' ha hne
      have hs := (blockSize_bounds i).1
      simp only [Kind.pages_small] at hdj
      omega
  refine ⟨hplace, fun p => ?_, fun b j hb => ?_, fun b n hb => ?_, hframe.desc, hframe.lists,
    fun i x hx => ?_⟩
  · show (h.pages p || decide _) = true ↔ _
    rw [Bool.or_eq_true, R.owned, decide_eq_true_eq]
    constructor
    · rintro (⟨b, j, hb, hrange⟩ | hrange)
      · exact ⟨b, j, (hold b j hb).2, hrange⟩
      · exact ⟨a, k, ha, hrange⟩
    · rintro ⟨b, j, hb, hrange⟩
      by_cases hba : b = a
      · subst hba
        rw [View.setCnt_ar, View.setArena_ar, ha] at hb
        cases hb
        exact .inr hrange
      · rw [View.setCnt_ar, View.setArena_ar, Function.update_of_ne hba] at hb
        exact .inl ⟨b, j, hb, hrange⟩
  · by_cases hba : b = a
    · subst hba
      rw [View.setCnt_ar, View.setArena_ar, ha] at hb
      rw [View.setCnt_fc, Function.update_self]
      exact hsmall j (Option.some.inj hb)
    · rw [View.setCnt_ar, View.setArena_ar, Function.update_of_ne hba] at hb
      rw [View.setCnt_fc, Function.update_of_ne hba]
      exact hframe.small b j hb
  · by_cases hba : b = a
    · subst hba
      rw [View.setCnt_ar, View.setArena_ar, ha] at hb
      exact hlarge n (Option.some.inj hb)
    · rw [View.setCnt_ar, View.setArena_ar, Function.update_of_ne hba] at hb
      exact hframe.large b n hb
  · obtain ⟨b, l, hb, hl, rfl⟩ := R.node i x hx
    exact ⟨b, l, (hold b _ hb).2, hl, rfl⟩

/-- Giving the pages of an arena back, when none of its blocks is on a free
    list. -/
theorem Rep.dropArena (R : Rep env h v) {k : Kind} (ha : v.ar a = some k)
    (hnone : ∀ i x, x ∈ v.fl i → block2arena x ≠ a) :
    mfreePage a k.pages h = .ok (h.dropPages (a / 4096) k.pages)
      ∧ Rep env (h.dropPages (a / 4096) k.pages) (v.setArena a none) := by
  have hp := R.placed
  obtain ⟨hmod, -, -, hpos⟩ := hp.base _ _ ha
  have hown : ∀ n, n < k.pages → h.pages (a / pgSize + n) = true := fun n hn =>
    (R.owned _).2 ⟨a, k, ha, Nat.le_add_right _ _, Nat.add_lt_add_left hn _⟩
  have halign : 1 ≤ k.pages ∧ a % pgSize = 0 := ⟨hpos, hmod⟩
  have hsub : ∀ b j, Function.update v.ar a none b = some j → b ≠ a ∧ v.ar b = some j := by
    intro b j hb
    by_cases hba : b = a
    · subst hba
      rw [Function.update_self] at hb
      cases hb
    · exact ⟨hba, by rwa [Function.update_of_ne hba] at hb⟩
  refine ⟨by rw [mfreePage, require_pos halign, Outcome.ok_bind, require_pos hown]; rfl,
    ?_, fun p => ?_, fun b j hb => ?_, fun b n hb => ?_, R.desc, R.lists, fun i x hx => ?_⟩
  · exact ⟨fun b j hb => hp.base b j (hsub b j hb).2,
      fun b j hb => hp.kernel b j (hsub b j hb).2, fun b j hb => hp.descs b j (hsub b j hb).2,
      fun b j b' j' hb hb' => hp.disj b j b' j' (hsub b j hb).2 (hsub b' j' hb').2⟩
  · show (h.pages p && !decide (a / 4096 ≤ p ∧ p < a / 4096 + k.pages)) = true ↔ _
    rw [Bool.and_eq_true, R.owned, Bool.not_eq_true', decide_eq_false_iff_not]
    constructor
    · rintro ⟨⟨b, j, hb, hrange⟩, hne⟩
      have hba : b ≠ a := by
        rintro rfl
        rw [ha] at hb
        cases hb
        exact hne hrange
      exact ⟨b, j, by rwa [View.setArena_ar, Function.update_of_ne hba], hrange⟩
    · rintro ⟨b, j, hb, hrange⟩
      obtain ⟨hba, hb⟩ := hsub b j hb
      refine ⟨⟨b, j, hb, hrange⟩, fun hin => ?_⟩
      have hbmod := (hp.base _ _ hb).1
      have := hp.disj _ _ _ _ hb ha hba
      omega
  · obtain ⟨-, hb⟩ := hsub b _ hb
    exact R.small b j hb
  · obtain ⟨-, hb⟩ := hsub b _ hb
    exact R.large b n hb
  · obtain ⟨b, l, hb, hl, rfl⟩ := R.node i x hx
    have hpage := hp.page hb
    have hbb := block_bounds b hl
    have hs := (blockSize_bounds i).1
    have hba : b ≠ a := by
      rintro rfl
      exact hnone i _ hx (block2arena_of_mem_page hpage.1 hpage.2.2 (by omega) (by omega))
    exact ⟨b, l, by rwa [View.setArena_ar, Function.update_of_ne hba], hl, rfl⟩

end Kernel
end JackOS
