/-
  Cascade.Specificity — the rank of a chain: how many ids, classes and tags it asks
  for. The three counts, each at most 255, are packed into one word with the ids on
  top, so comparing words is comparing the counts in that order.
-/

import Cascade.Selector

namespace Cascade

/-- A rank packed as one word: ids, classes and tags in a byte each. -/
structure Specificity where
  word : UInt32
  deriving DecidableEq, Repr, Inhabited

namespace Specificity

/-- A count that fits its byte. -/
def cap (n : Nat) : Nat := min n 255

def ofCounts (ids classes tags : Nat) : Specificity :=
  ⟨.ofNat (cap ids * 65536 + cap classes * 256 + cap tags)⟩

def ids (s : Specificity) : Nat := s.word.toNat / 65536 % 256

def classes (s : Specificity) : Nat := s.word.toNat / 256 % 256

def tags (s : Specificity) : Nat := s.word.toNat % 256

theorem cap_lt (n : Nat) : cap n < 256 := by
  unfold cap
  omega

theorem toNat_word_ofCounts (ids classes tags : Nat) :
    (ofCounts ids classes tags).word.toNat = cap ids * 65536 + cap classes * 256 + cap tags := by
  have := cap_lt ids
  have := cap_lt classes
  have := cap_lt tags
  simp only [ofCounts, UInt32.toNat_ofNat']
  omega

@[simp] theorem ids_ofCounts (i c t : Nat) : (ofCounts i c t).ids = cap i := by
  have := cap_lt i
  have := cap_lt c
  have := cap_lt t
  rw [ids, toNat_word_ofCounts]
  omega

@[simp] theorem classes_ofCounts (i c t : Nat) : (ofCounts i c t).classes = cap c := by
  have := cap_lt i
  have := cap_lt c
  have := cap_lt t
  rw [classes, toNat_word_ofCounts]
  omega

@[simp] theorem tags_ofCounts (i c t : Nat) : (ofCounts i c t).tags = cap t := by
  have := cap_lt i
  have := cap_lt c
  have := cap_lt t
  rw [tags, toNat_word_ofCounts]
  omega

def text (s : Specificity) : String :=
  "(" ++ toString s.ids ++ "," ++ toString s.classes ++ "," ++ toString s.tags ++ ")"

instance : LE Specificity := ⟨fun s t => s.word ≤ t.word⟩
instance : LT Specificity := ⟨fun s t => s.word < t.word⟩
instance (s t : Specificity) : Decidable (s ≤ t) := inferInstanceAs (Decidable (s.word ≤ t.word))
instance (s t : Specificity) : Decidable (s < t) := inferInstanceAs (Decidable (s.word < t.word))
instance : Ord Specificity := ⟨fun s t => compare s.word t.word⟩

/-- The rank of nothing. -/
def zero : Specificity := ⟨0⟩

end Specificity

namespace Chain

/-- How many selectors ask for an id. -/
def idCount (c : Chain) : Nat := c.selectors.countP (!·.id.isEmpty)

def classCount (c : Chain) : Nat := c.selectors.foldl (fun n s => n + s.classes.length) 0

/-- How many selectors ask for a tag. -/
def tagCount (c : Chain) : Nat := c.selectors.countP (!·.anyTag)

def specificity (c : Chain) : Specificity := .ofCounts c.idCount c.classCount c.tagCount

end Chain

end Cascade
