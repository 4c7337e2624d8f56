/-
  Cascade.Proofs.Selector.Rank — what the rank of a chain depends on. A word holds three
  counts, each cut off at 255, and nothing of one count gets into the place of another:
  comparing words is comparing the counts, the ids first, then the classes, then the tags
  (`compare_ofCounts`).

  A chain is counted one kind of part at a time (`Chain.asks`), and its rank has that count,
  cut off (`Chain.field_specificity`). So the same three arguments do for ids, classes and
  tags:
  - The counts of two chains put together add up, and cutting off the sum is the same as
    adding with a cut-off (`cap_add`).
  - The order of the selectors, the order of the classes in a selector and the combinators
    are not counted.
  - What is asked for in addition raises the counts or leaves them, and the rank with them.
-/

import Cascade.Reader
import Cascade.Specificity
import Mathlib.Algebra.Ring.Nat
import Mathlib.Data.List.Forall2

namespace Cascade

/-! ## Words -/

namespace Specificity

/-- Three numbers side by side do not overlap where the lower two are bytes. -/
theorem bytes_eq_or {i c t : Nat} (hc : c < 256) (ht : t < 256) :
    i * 65536 + c * 256 + t = i <<< 16 ||| c <<< 8 ||| t := by
  have hlow : c <<< 8 ||| t = c * 256 + t := by
    rw [← Nat.shiftLeft_add_eq_or_of_lt ht, Nat.shiftLeft_eq]
  rw [Nat.or_assoc, hlow, ← Nat.shiftLeft_add_eq_or_of_lt (by omega), Nat.shiftLeft_eq, Nat.add_assoc]

/-- A byte is not shifted out of a word by two places or less. -/
theorem toNat_shifted {n : Nat} (h : n < 256) {k : UInt32} (hk : k.toNat ≤ 16) :
    (UInt32.ofNat n <<< k).toNat = n <<< k.toNat := by
  have hn : (UInt32.ofNat n).toNat = n := by
    rw [UInt32.toNat_ofNat']
    omega
  have hfits : n * 2 ^ k.toNat < 2 ^ 32 :=
    calc n * 2 ^ k.toNat ≤ n * 2 ^ 16 := Nat.mul_le_mul_left n (Nat.pow_le_pow_right (by omega) hk)
      _ < 2 ^ 32 := by omega
  rw [UInt32.toNat_shiftLeft, hn, Nat.mod_eq_of_lt (by omega : k.toNat < 32), Nat.shiftLeft_eq, Nat.mod_eq_of_lt hfits]

/-- The word is the three counts, each shifted into its place. -/
theorem word_ofCounts (ids classes tags : Nat) :
    (ofCounts ids classes tags).word =
      UInt32.ofNat (cap ids) <<< 16 ||| UInt32.ofNat (cap classes) <<< 8 ||| UInt32.ofNat (cap tags) <<< 0 := by
  apply UInt32.toNat_inj.mp
  rw [toNat_word_ofCounts, bytes_eq_or (cap_lt classes) (cap_lt tags), UInt32.toNat_or, UInt32.toNat_or,
    toNat_shifted (cap_lt ids) (by decide), toNat_shifted (cap_lt classes) (by decide),
    toNat_shifted (cap_lt tags) (by decide)]
  rfl

/-- Each count is what a shift and a mask read from its place. -/
theorem fields_eq (s : Specificity) :
    s.ids = (s.word >>> 16 &&& 0xFF).toNat ∧ s.classes = (s.word >>> 8 &&& 0xFF).toNat ∧
      s.tags = (s.word >>> 0 &&& 0xFF).toNat := by
  have hmask (n : Nat) : n &&& (0xFF : UInt32).toNat = n % 256 := Nat.and_two_pow_sub_one_eq_mod n 8
  simp only [UInt32.toNat_and, UInt32.toNat_shiftRight, hmask, Nat.shiftRight_eq_div_pow]
  exact ⟨rfl, rfl, (Nat.div_one _).symm ▸ rfl⟩

/-! ## The order of words -/

/-- A byte further down matters only where what stands above it is equal. -/
theorem compare_byte {a a' b b' : Nat} (hb : b < 256) (hb' : b' < 256) :
    compare (a * 256 + b) (a' * 256 + b') = (compare a a').then (compare b b') := by
  grind [Nat.compare_eq_ite_lt, Ordering.then]

theorem compare_ofCounts (i c t i' c' t' : Nat) :
    compare (ofCounts i c t) (ofCounts i' c' t') =
      (compare (cap i) (cap i')).then ((compare (cap c) (cap c')).then (compare (cap t) (cap t'))) := by
  have hword (i c t : Nat) : (ofCounts i c t).word.toNat = (cap i * 256 + cap c) * 256 + cap t := by
    rw [toNat_word_ofCounts]
    omega
  show compare (ofCounts i c t).word (ofCounts i' c' t').word = _
  rw [UInt32.compare_eq_toNat_compare_toNat, hword, hword, compare_byte (cap_lt t) (cap_lt t'),
    compare_byte (cap_lt c) (cap_lt c'), Ordering.then_assoc]

theorem lt_iff_compare {s t : Specificity} : s < t ↔ compare s t = .lt := by
  show s.word < t.word ↔ compare s.word t.word = .lt
  rw [UInt32.compare_eq_toNat_compare_toNat, Nat.compare_eq_lt, UInt32.lt_iff_toNat_lt]

theorem le_iff_compare {s t : Specificity} : s ≤ t ↔ compare s t ≠ .gt := by
  show s.word ≤ t.word ↔ compare s.word t.word ≠ .gt
  rw [UInt32.compare_eq_toNat_compare_toNat, Ne, Nat.compare_eq_gt, UInt32.le_iff_toNat_le, Nat.not_lt]

/-! ## Counts that are cut off -/

theorem cap_le_cap {m n : Nat} (h : m ≤ n) : cap m ≤ cap n := by
  unfold cap
  omega

/-- A sum may be cut off on the way or at the end. -/
theorem cap_add (m n : Nat) : cap (m + n) = cap (cap m + cap n) := by
  unfold cap
  omega

theorem ofCounts_le {i c t i' c' t' : Nat} (hi : i ≤ i') (hc : c ≤ c') (ht : t ≤ t') :
    ofCounts i c t ≤ ofCounts i' c' t' := by
  have := cap_le_cap hi
  have := cap_le_cap hc
  have := cap_le_cap ht
  show (ofCounts i c t).word ≤ (ofCounts i' c' t').word
  rw [UInt32.le_iff_toNat_le, toNat_word_ofCounts, toNat_word_ofCounts]
  omega

/-- The count of the parts of one kind. -/
def field (s : Specificity) : Part → Nat
  | .id => s.ids
  | .className => s.classes
  | .tag => s.tags

end Specificity

/-! ## What selectors ask for -/

/-- How many parts of one kind the selector asks for. -/
def Selector.asks (s : Selector) : Part → Nat
  | .id => if s.id.isEmpty then 0 else 1
  | .className => s.classes.length
  | .tag => if s.anyTag then 0 else 1

/-- The same parts are asked for; the order of the classes and the combinator may differ. -/
structure Selector.Alike (s t : Selector) : Prop where
  tag : s.tag = t.tag
  id : s.id = t.id
  classes : s.classes.Perm t.classes

/-- `t` asks for all that `s` asks for: classes may be added, and a tag or an id where there was none. -/
structure Selector.Extends (s t : Selector) : Prop where
  tag : s.anyTag = true ∨ s.tag = t.tag
  id : s.id = "" ∨ s.id = t.id
  classes : s.classes.Sublist t.classes

theorem Selector.Alike.asks_eq {s t : Selector} (h : s.Alike t) (part : Part) : s.asks part = t.asks part := by
  cases part with
  | id => simp [asks, h.id]
  | className => exact h.classes.length_eq
  | tag => simp [asks, anyTag, h.tag]

theorem Selector.Extends.asks_le {s t : Selector} (h : s.Extends t) (part : Part) : s.asks part ≤ t.asks part := by
  cases part with
  | id =>
    rcases h.id with hid | hid
    · simp [asks, hid]
    · simp [asks, hid]
  | className => exact h.classes.length_le
  | tag =>
    rcases h.tag with htag | htag
    · simp [asks, htag]
    · simp [asks, anyTag, htag]

/-! ## What chains ask for -/

namespace Chain

variable {xs ys : List Selector} {c c' : Chain}

/-- How many parts of one kind the selectors of the chain ask for. -/
def asks (c : Chain) (part : Part) : Nat := (c.selectors.map (·.asks part)).sum

theorem countP_eq_sum {p : Selector → Bool} {f : Selector → Nat} (h : ∀ s, f s = if p s then 0 else 1)
    (xs : List Selector) : xs.countP (!p ·) = (xs.map f).sum := by
  induction xs with
  | nil => rfl
  | cons s xs ih =>
    rw [List.countP_cons, ih, List.map_cons, List.sum_cons, h]
    cases p s <;> simp [Nat.add_comm]

theorem classCount_eq_sum (c : Chain) : c.classCount = (c.selectors.map (·.classes.length)).sum := by
  rw [List.sum_eq_foldl, List.foldl_map]
  rfl

theorem specificity_eq (c : Chain) : c.specificity = .ofCounts (c.asks .id) (c.asks .className) (c.asks .tag) := by
  have hids : c.idCount = c.asks .id := countP_eq_sum (fun _ => rfl) _
  have hclasses : c.classCount = c.asks .className := c.classCount_eq_sum
  have htags : c.tagCount = c.asks .tag := countP_eq_sum (fun _ => rfl) _
  rw [← hids, ← hclasses, ← htags]
  rfl

/-- The rank of a chain has the number of parts of each kind that it asks for, cut off. -/
theorem field_specificity (c : Chain) (part : Part) : c.specificity.field part = Specificity.cap (c.asks part) := by
  rw [specificity_eq]
  cases part with
  | id => exact Specificity.ids_ofCounts _ _ _
  | className => exact Specificity.classes_ofCounts _ _ _
  | tag => exact Specificity.tags_ofCounts _ _ _

theorem specificity_congr (h : ∀ part, c.asks part = c'.asks part) : c.specificity = c'.specificity := by
  rw [specificity_eq, specificity_eq, h, h, h]

theorem specificity_mono (h : ∀ part, c.asks part ≤ c'.asks part) : c.specificity ≤ c'.specificity := by
  rw [specificity_eq, specificity_eq]
  exact Specificity.ofCounts_le (h _) (h _) (h _)

theorem asks_cons (s : Selector) (xs : List Selector) (part : Part) :
    asks ⟨s :: xs⟩ part = s.asks part + asks ⟨xs⟩ part := by
  simp [asks]

theorem asks_append (xs ys : List Selector) (part : Part) :
    asks ⟨xs ++ ys⟩ part = asks ⟨xs⟩ part + asks ⟨ys⟩ part := by
  simp [asks]

theorem asks_perm (h : xs.Perm ys) (part : Part) : asks ⟨xs⟩ part = asks ⟨ys⟩ part := (h.map _).sum_nat

theorem asks_alike (h : List.Forall₂ Selector.Alike xs ys) (part : Part) : asks ⟨xs⟩ part = asks ⟨ys⟩ part := by
  induction h with
  | nil => rfl
  | cons h _ ih => rw [asks_cons, asks_cons, h.asks_eq, ih]

theorem asks_extends (h : List.SublistForall₂ Selector.Extends xs ys) (part : Part) :
    asks ⟨xs⟩ part ≤ asks ⟨ys⟩ part := by
  induction h with
  | nil => exact Nat.zero_le _
  | cons h _ ih =>
    rw [asks_cons, asks_cons]
    exact Nat.add_le_add (h.asks_le part) ih
  | cons_right _ ih =>
    rw [asks_cons]
    exact Nat.le_add_left_of_le ih

/-- The counts of two chains put together are added up, with a cut-off. -/
theorem field_append (xs ys : List Selector) (part : Part) :
    (specificity ⟨xs ++ ys⟩).field part =
      Specificity.cap ((specificity ⟨xs⟩).field part + (specificity ⟨ys⟩).field part) := by
  rw [field_specificity, field_specificity, field_specificity, asks_append, Specificity.cap_add]

end Chain

/-! ## The rank of a chain -/

/-- A word keeps the three counts apart, each cut off at 255, and compares as they do, the ids first. The rank of a
    chain has the numbers of ids, classes and tags that its selectors ask for. It adds up over the selectors, does not
    depend on their order, on the order of their classes or on the combinators, and does not sink when more is asked
    for. -/
theorem specificity_orders_counts (i c t i' c' t' : Nat) (xs ys : List Selector) :
    let s := Specificity.ofCounts i c t
    let s' := Specificity.ofCounts i' c' t'
    (s.word = UInt32.ofNat (min i 255) <<< 16 ||| UInt32.ofNat (min c 255) <<< 8 ||| UInt32.ofNat (min t 255) <<< 0 ∧
      s.ids = min i 255 ∧ s.classes = min c 255 ∧ s.tags = min t 255 ∧
      s.ids = (s.word >>> 16 &&& 0xFF).toNat ∧ s.classes = (s.word >>> 8 &&& 0xFF).toNat ∧
      s.tags = (s.word >>> 0 &&& 0xFF).toNat) ∧
    (compare s s' = (compare (min i 255) (min i' 255)).then
        ((compare (min c 255) (min c' 255)).then (compare (min t 255) (min t' 255))) ∧
      (s < s' ↔ compare s s' = .lt) ∧ (s ≤ s' ↔ compare s s' ≠ .gt)) ∧
    (∀ part, (Chain.specificity ⟨xs⟩).field part = min (Chain.asks ⟨xs⟩ part) 255) ∧
    (∀ part, (Chain.specificity ⟨xs ++ ys⟩).field part =
      min ((Chain.specificity ⟨xs⟩).field part + (Chain.specificity ⟨ys⟩).field part) 255) ∧
    (∀ zs, xs.Perm zs → List.Forall₂ Selector.Alike zs ys → Chain.specificity ⟨xs⟩ = Chain.specificity ⟨ys⟩) ∧
    (List.SublistForall₂ Selector.Extends xs ys →
      Chain.specificity ⟨xs⟩ ≤ Chain.specificity ⟨ys⟩ ∧
        ∀ part, (Chain.specificity ⟨xs⟩).field part ≤ (Chain.specificity ⟨ys⟩).field part) := by
  intro s s'
  refine ⟨⟨Specificity.word_ofCounts i c t, Specificity.ids_ofCounts i c t, Specificity.classes_ofCounts i c t,
    Specificity.tags_ofCounts i c t, Specificity.fields_eq s⟩, ⟨Specificity.compare_ofCounts i c t i' c' t',
    Specificity.lt_iff_compare, Specificity.le_iff_compare⟩, Chain.field_specificity ⟨xs⟩, Chain.field_append xs ys,
    ?_, ?_⟩
  · intro zs hperm halike
    exact Chain.specificity_congr fun part => (Chain.asks_perm hperm part).trans (Chain.asks_alike halike part)
  · intro hmore
    refine ⟨Chain.specificity_mono (Chain.asks_extends hmore), fun part => ?_⟩
    rw [Chain.field_specificity, Chain.field_specificity]
    exact Specificity.cap_le_cap (Chain.asks_extends hmore part)

/-- `a.x.y > #i` -/
def childOfClasses : List Selector :=
  [{ tag := "a", classes := ["x", "y"], combinator := .child }, { id := "i" }]

/-- `#i ~ a.y.x` -/
def classesAfter : List Selector :=
  [{ id := "i", combinator := .subsequent }, { tag := "a", classes := ["y", "x"] }]

/-- `a.x.z.y > b#i c` -/
def grandchildOfClasses : List Selector :=
  [{ tag := "a", classes := ["x", "z", "y"], combinator := .child },
    { tag := "b", id := "i", combinator := .descendant }, { tag := "c" }]

/-- One selector with as many classes. -/
def manyClasses (n : Nat) : List Selector := [{ classes := List.replicate n "x" }]

/-- One id, two classes and one tag; of 300 classes 255 count. -/
theorem specificity_orders_counts_classes :
    (childOfClasses.Perm childOfClasses.reverse ∧
        List.Forall₂ Selector.Alike childOfClasses.reverse classesAfter ∧
        Chain.specificity ⟨childOfClasses⟩ = Chain.specificity ⟨classesAfter⟩) ∧
      (List.SublistForall₂ Selector.Extends childOfClasses grandchildOfClasses ∧
        Chain.specificity ⟨childOfClasses⟩ ≤ Chain.specificity ⟨grandchildOfClasses⟩) ∧
      ((Chain.specificity ⟨childOfClasses⟩).field .id = 1 ∧
        (Chain.specificity ⟨childOfClasses⟩).field .className = 2 ∧
        (Chain.specificity ⟨childOfClasses⟩).field .tag = 1) ∧
      (Chain.specificity ⟨manyClasses 300⟩).field .className = 255 := by
  have hperm : childOfClasses.Perm childOfClasses.reverse := (List.reverse_perm _).symm
  have halike : List.Forall₂ Selector.Alike childOfClasses.reverse classesAfter :=
    .cons ⟨rfl, rfl, .nil⟩ (.cons ⟨rfl, rfl, .swap _ _ _⟩ .nil)
  have hmore : List.SublistForall₂ Selector.Extends childOfClasses grandchildOfClasses :=
    .cons ⟨.inr rfl, .inl rfl, .cons_cons _ (.cons _ (.refl _))⟩ (.cons ⟨.inl (by decide), .inr rfl, .refl _⟩ .nil)
  obtain ⟨-, -, hfield, -, hsame, -⟩ := specificity_orders_counts 300 2 0 255 2 1 childOfClasses classesAfter
  obtain ⟨-, -, -, -, -, hmono⟩ := specificity_orders_counts 300 2 0 255 2 1 childOfClasses grandchildOfClasses
  obtain ⟨-, -, hmany, -⟩ := specificity_orders_counts 300 2 0 255 2 1 (manyClasses 300) []
  have hasks (n : Nat) : Chain.asks ⟨manyClasses n⟩ .className = n := by simp [Chain.asks, Selector.asks, manyClasses]
  refine ⟨⟨hperm, halike, hsame _ hperm halike⟩, ⟨hmore, (hmono hmore).1⟩, ?_, ?_⟩
  · exact ⟨hfield .id, hfield .className, hfield .tag⟩
  · rw [hmany, hasks]
    rfl

-- 300 ids are 255 of them, so the tag decides
example : Specificity.ofCounts 300 2 0 < .ofCounts 255 2 1 := by decide

end Cascade
