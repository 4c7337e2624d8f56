/-
  Cascade.Proofs.Sheet.Genuine — a number names one thing. Styles and blocks are `Genuine`
  when they come from one supply: a style ranks as its chain does, two styles with one
  serial number are the same style, and two blocks with one number are the same block.

  A supply adds only what has a new number (`genuine_newBlock`, `genuine_newStyles`), so a
  builder does, whatever events it is given (`genuine_addAll`), and so does every program:
  the styles of all its sheets and those in hand are genuine together (`sound_after`).
-/

import Cascade.Proofs.Sheet.Chunks
import Cascade.Sheet.Store

namespace Cascade

variable {σ V : Type} {styles : Style V → Prop} {blocks : Block V → Prop} {supply : Supply}

/-- These styles, and their blocks among these blocks, were made with numbers that the supply has handed out. -/
structure Genuine (styles : Style V → Prop) (blocks : Block V → Prop) (supply : Supply) : Prop where
  ranks : ∀ x, styles x → x.specificity = x.chain.specificity
  placed : ∀ x, styles x → blocks x.block
  serials : ∀ x, styles x → x.serial < supply.serial
  numbers : ∀ b, blocks b → b.number < supply.block
  sameStyle : ∀ x y, styles x → styles y → x.serial = y.serial → x = y
  sameBlock : ∀ b c, blocks b → blocks c → b.number = c.number → b = c

/-! ## What a supply makes -/

/-- What is left of genuine styles and blocks is genuine, as long as no style loses its block. -/
theorem Genuine.mono (h : Genuine styles blocks supply) {styles' : Style V → Prop} {blocks' : Block V → Prop}
    (hs : ∀ x, styles' x → styles x) (hb : ∀ b, blocks' b → blocks b)
    (hp : ∀ x, styles' x → blocks' x.block) : Genuine styles' blocks' supply where
  ranks := fun x hx => h.ranks x (hs x hx)
  placed := hp
  serials := fun x hx => h.serials x (hs x hx)
  numbers := fun b hb' => h.numbers b (hb b hb')
  sameStyle := fun x y hx hy => h.sameStyle x y (hs x hx) (hs y hy)
  sameBlock := fun b c hb' hc => h.sameBlock b c (hb b hb') (hb c hc)

theorem Genuine.sub (h : Genuine styles blocks supply) {styles' : Style V → Prop} (hs : ∀ x, styles' x → styles x) :
    Genuine styles' blocks supply :=
  h.mono hs (fun _ => id) fun x hx => h.placed x (hs x hx)

theorem genuine_newBlock (h : Genuine styles blocks supply) (d : Declarations V) :
    Genuine styles (fun b => blocks b ∨ b = (supply.newBlock d).1) (supply.newBlock d).2 where
  ranks := h.ranks
  placed := fun x hx => Or.inl (h.placed x hx)
  serials := h.serials
  numbers := by
    rintro b (hb | rfl)
    · exact Nat.lt_succ_of_lt (h.numbers b hb)
    · exact Nat.lt_succ_self _
  sameStyle := h.sameStyle
  sameBlock := by
    rintro b c (hb | rfl) (hc | rfl) hn
    · exact h.sameBlock b c hb hc hn
    · exact absurd hn (Nat.ne_of_lt (h.numbers b hb))
    · exact absurd hn.symm (Nat.ne_of_lt (h.numbers c hc))
    · rfl

theorem genuine_newStyle (h : Genuine styles blocks supply) {b : Block V} (hb : blocks b) (c : Chain) :
    Genuine (fun x => styles x ∨ x = (supply.newStyle c b).1) blocks (supply.newStyle c b).2 where
  ranks := by
    rintro x (hx | rfl)
    · exact h.ranks x hx
    · rfl
  placed := by
    rintro x (hx | rfl)
    · exact h.placed x hx
    · exact hb
  serials := by
    rintro x (hx | rfl)
    · exact Nat.lt_succ_of_lt (h.serials x hx)
    · exact Nat.lt_succ_self _
  numbers := h.numbers
  sameStyle := by
    rintro x y (hx | rfl) (hy | rfl) hn
    · exact h.sameStyle x y hx hy hn
    · exact absurd hn (Nat.ne_of_lt (h.serials x hx))
    · exact absurd hn.symm (Nat.ne_of_lt (h.serials y hy))
    · rfl
  sameBlock := h.sameBlock

theorem genuine_newStyles (h : Genuine styles blocks supply) {b : Block V} (hb : blocks b) (cs : List Chain) :
    Genuine (fun x => styles x ∨ x ∈ (supply.newStyles cs b).1) blocks (supply.newStyles cs b).2 := by
  induction cs generalizing styles supply with
  | nil => exact h.mono (by simp [Supply.newStyles]) (fun _ => id) (by simpa [Supply.newStyles] using h.placed)
  | cons c cs ih =>
    have hrest := ih (genuine_newStyle h hb c)
    rw [Supply.newStyles_cons]
    simpa only [List.mem_cons, or_assoc] using hrest

/-! ## What a builder makes -/

namespace Builder

variable (host : Host σ V)

theorem styles_addValue (b : Builder σ V) (text : String) : (b.addValue host text).styles = b.styles := by
  unfold addValue
  split
  · rfl
  · split <;> rfl

/-- Only the end of a block makes styles, and these have new numbers, as their block has. -/
theorem genuine_add {b : Builder σ V} (h : Genuine (fun x => styles x ∨ x ∈ b.styles) blocks supply) (e : Event) :
    ∃ blocks' : Block V → Prop, (∀ k, blocks k → blocks' k) ∧
      Genuine (fun x => styles x ∨ x ∈ (b.add host supply e).1.styles) blocks' (b.add host supply e).2 := by
  cases e with
  | blockEnd =>
    have hblock := genuine_newBlock h b.declarations
    have hstyles := genuine_newStyles hblock (Or.inr rfl) b.waiting.reverse
    refine ⟨fun k => blocks k ∨ k = (supply.newBlock b.declarations).1, fun k => Or.inl, ?_⟩
    apply hstyles.sub
    rintro x (hx | hx)
    · exact Or.inl (Or.inl hx)
    · simp only [add, endBlock, List.reverseAux_eq, List.mem_append, List.mem_reverse] at hx
      exact hx.elim Or.inr fun hx => Or.inl (Or.inr hx)
  | value text =>
    refine ⟨blocks, fun _ => id, ?_⟩
    simpa only [add, styles_addValue] using h
  | tag | id | className | combinator | selectorEnd | chainEnd | name => exact ⟨blocks, fun _ => id, h⟩

theorem genuine_addAll {b : Builder σ V} (h : Genuine (fun x => styles x ∨ x ∈ b.styles) blocks supply)
    (events : List Event) :
    ∃ blocks' : Block V → Prop, (∀ k, blocks k → blocks' k) ∧
      Genuine (fun x => styles x ∨ x ∈ (b.addAll host supply events).1.styles) blocks'
        (b.addAll host supply events).2 := by
  induction events generalizing b blocks supply with
  | nil => exact ⟨blocks, fun _ => id, h⟩
  | cons e es ih =>
    obtain ⟨first, hfirst, hadd⟩ := genuine_add host h e
    obtain ⟨rest, hrest, hall⟩ := ih hadd
    exact ⟨rest, fun k hk => hrest k (hfirst k hk), hall⟩

end Builder

/-! ## What a program has -/

namespace Store

variable {st : Store V}

/-- The style is in a sheet or in hand. -/
def Holds (st : Store V) (x : Style V) : Prop := x ∈ st.styles ∨ ∃ i, x ∈ (st.sheet i).styles

/-- The block is in hand, or it is that of a style. -/
def HasBlock (st : Store V) (b : Block V) : Prop := b ∈ st.blocks ∨ ∃ x, st.Holds x ∧ x.block = b

/-- All that a program has was made with numbers of its supply. -/
def Sound (st : Store V) : Prop := Genuine st.Holds st.HasBlock st.supply

theorem holds_put {i : Nat} {s : Sheet V} {x : Style V} (h : (st.put i s).Holds x) : st.Holds x ∨ x ∈ s.styles := by
  rcases h with h | ⟨k, hk⟩
  · exact Or.inl (Or.inl h)
  · by_cases e : k = i
    · subst e
      rw [put_same] at hk
      exact Or.inr hk
    · rw [put_ne _ _ e] at hk
      exact Or.inl (Or.inr ⟨k, hk⟩)

theorem hasBlock_of_holds {x : Style V} (h : st.Holds x) : st.HasBlock x.block := Or.inr ⟨x, h, rfl⟩

/-- A program that has only such styles and blocks is sound. -/
theorem sound_of_genuine (h : Genuine styles blocks st.supply) (hs : ∀ x, st.Holds x → styles x)
    (hb : ∀ b ∈ st.blocks, blocks b) : Sound st := by
  refine h.mono hs ?_ fun x => hasBlock_of_holds
  rintro b (hb' | ⟨x, hx, rfl⟩)
  · exact hb b hb'
  · exact h.placed x (hs x hx)

/-- A sheet of styles that are there already. -/
theorem sound_put (h : Sound st) {i : Nat} {s : Sheet V} (hs : ∀ x ∈ s.styles, st.Holds x) : Sound (st.put i s) :=
  sound_of_genuine h (fun x hx => (holds_put hx).elim id (hs x)) fun _ => Or.inl

theorem genuine_built (h : Sound st) (host : Host σ V) (memory : σ) (events : List Event) :
    ∃ blocks, (∀ b ∈ st.blocks, blocks b) ∧
      Genuine (fun x => st.Holds x ∨ x ∈ (({ memory } : Builder σ V).addAll host st.supply events).1.finished) blocks
        (({ memory } : Builder σ V).addAll host st.supply events).2 := by
  have hnone : Genuine (fun x => st.Holds x ∨ x ∈ ({ memory } : Builder σ V).styles) st.HasBlock st.supply :=
    Genuine.sub h fun x hx => hx.elim id (by simp)
  obtain ⟨blocks, hblocks, hall⟩ := Builder.genuine_addAll host hnone events
  exact ⟨blocks, fun b hb => hblocks b (Or.inl hb), by simpa only [Builder.finished, List.mem_reverse] using hall⟩

/-- A sheet of styles that a builder has made. -/
theorem sound_built (h : Sound st) (host : Host σ V) (memory : σ) (events : List Event) (i : Nat) :
    let built := ({ memory } : Builder σ V).addAll host st.supply events
    Sound ({ st with supply := built.2 }.put i (.ofStyles built.1.finished)) := by
  intro built
  obtain ⟨blocks, hblocks, hall⟩ := genuine_built h host memory events
  refine sound_of_genuine hall ?_ hblocks
  intro x hx
  exact (holds_put hx).imp id fun hx => (Sheet.perm_ofStyles _).mem_iff.mp hx

/-- A reading uses up its numbers, whether or not a sheet comes of it. -/
theorem sound_finish (h : Sound st) (host : Host σ V) (memory : σ) (source : List Reply) (i : Nat) :
    Sound (st.finish i (Sheet.read host memory st.supply source)) := by
  have hsupply := (Sheet.builder_read host memory st.supply source).2
  unfold finish
  split
  · rename_i s hs
    rw [hsupply, Sheet.sheet_read host memory st.supply hs]
    exact sound_built h host memory _ i
  · rw [hsupply]
    obtain ⟨blocks, hblocks, hall⟩ := genuine_built h host memory (({} : Reader).run (Source.served source)).events
    exact sound_of_genuine hall (fun x => Or.inl) hblocks

/-- One action keeps a program sound. -/
theorem sound_step (h : Sound st) (a : Action V) : Sound (st.step a) := by
  have hsheet (i : Nat) (x : Style V) (hx : x ∈ (st.sheet i).styles) : st.Holds x := Or.inr ⟨i, hx⟩
  cases a with
  | new i => exact sound_put h (by simp [Sheet.empty])
  | read i host memory source => exact sound_finish h host memory source i
  | parse i host memory css => exact sound_finish h host memory _ i
  | build i host memory events => exact sound_built h host memory events i
  | block declarations =>
    refine sound_of_genuine (genuine_newBlock h declarations) (fun _ => id) ?_
    intro b hb
    exact (List.mem_append.mp hb).imp Or.inl List.mem_singleton.mp
  | style chain k =>
    simp only [step]
    split
    · exact h
    · rename_i b hb
      have hnew := genuine_newStyle h (Or.inl (List.mem_of_getElem? hb)) chain
      refine sound_of_genuine hnew ?_ fun _ => Or.inl
      rintro x (hx | hx)
      · exact (List.mem_append.mp hx).imp Or.inl List.mem_singleton.mp
      · exact Or.inl (Or.inr hx)
  | copy i k =>
    simp only [step]
    split
    · exact h
    · rename_i y hy
      have hold : st.Holds y := hsheet i y (List.mem_of_getElem? hy)
      refine sound_of_genuine h ?_ ?_
      · rintro x (hx | hx)
        · rcases List.mem_append.mp hx with hx | hx
          · exact Or.inl hx
          · rwa [List.mem_singleton.mp hx]
        · exact Or.inr hx
      · intro b hb
        rcases List.mem_append.mp hb with hb | hb
        · exact Or.inl hb
        · rw [List.mem_singleton.mp hb]
          exact hasBlock_of_holds hold
  | ofStyles i ks =>
    apply sound_put h
    intro x hx
    obtain ⟨k, -, hk⟩ := List.mem_filterMap.mp ((Sheet.perm_ofStyles _).mem_iff.mp hx)
    exact Or.inl (List.mem_of_getElem? hk)
  | insert i k =>
    simp only [step]
    split
    · exact h
    · rename_i y hy
      apply sound_put h
      intro x hx
      rcases List.mem_append.mp ((Sheet.perm_ofStyles _).mem_iff.mp hx) with hx | hx
      · exact hsheet i x hx
      · rw [List.mem_singleton.mp hx]
        exact Or.inl (List.mem_of_getElem? hy)
  | append i j =>
    simp only [step]
    split
    · exact h
    · have hfirst : Sound (st.put i ((st.sheet i).append (st.sheet j)).1) := by
        apply sound_put h
        intro x hx
        exact (List.mem_append.mp ((Sheet.perm_ofStyles _).mem_iff.mp hx)).elim (hsheet i x) (hsheet j x)
      exact sound_put hfirst (by simp [Sheet.append, Sheet.empty])
  | sort i =>
    apply sound_put h
    intro x hx
    exact hsheet i x ((Sheet.perm_ofStyles _).mem_iff.mp hx)

theorem sound_run (h : Sound st) (actions : List (Action V)) : Sound (st.run actions) := by
  induction actions generalizing st with
  | nil => exact h
  | cons a actions ih => exact ih (sound_step h a)

theorem not_holds_empty (x : Style V) : ¬ ({} : Store V).Holds x := by simp [Holds, Sheet.empty]

theorem not_hasBlock_empty (b : Block V) : ¬ ({} : Store V).HasBlock b := by simp [HasBlock, not_holds_empty]

theorem sound_empty : Sound ({} : Store V) where
  ranks := fun x hx => absurd hx (not_holds_empty x)
  placed := fun x hx => absurd hx (not_holds_empty x)
  serials := fun x hx => absurd hx (not_holds_empty x)
  numbers := fun b hb => absurd hb (not_hasBlock_empty b)
  sameStyle := fun x _ hx => absurd hx (not_holds_empty x)
  sameBlock := fun b _ hb => absurd hb (not_hasBlock_empty b)

/-- Whatever a program did, what it has was made with numbers of its supply. -/
theorem sound_after (actions : List (Action V)) : Sound (Store.after actions) := sound_run sound_empty actions

end Store

end Cascade
