/-
  Cascade.Proofs.Sheet.Undisturbed — builds in flight do not disturb one another. Builds on
  one bench, and the program beside them, share nothing but the supply of numbers. So to a
  build all that the others do comes to this: between two of its chunks some numbers are
  gone.

  - Two builders `Mirror` each other when the one has what the other has, with other numbers
    on its styles, which are in the same order. Every event keeps this
    (`mirrors_add`), and so does the use of numbers by others (`Mirrors.later`).
  - No turn gives numbers back (`le_step`).
  - So after any turns a build is where it would be if it had been fed its chunks alone, with
    numbers from anywhere, and its sheet has the same styles in the same order, the same ones
    share a block, and the text is the same (`sheet_undisturbed`).
  - And what a build alone comes to, if its chunks make up a text of rules, are the styles made
    of these rules, wherever the text is cut (`Build.sheet_of_text`): this is the link from
    builds to the styles of a text.
-/

import Cascade.Proofs.Sheet.Genuine
import Cascade.Proofs.Sheet.Renumbered
import Cascade.Sheet.Bench

namespace Cascade

/-! ## Numbers are used up -/

instance : LE Supply := ⟨fun s t => s.block ≤ t.block ∧ s.serial ≤ t.serial⟩

namespace Supply

theorem le_refl (s : Supply) : s ≤ s := ⟨Nat.le_refl _, Nat.le_refl _⟩

theorem le_trans {s t u : Supply} (h : s ≤ t) (h' : t ≤ u) : s ≤ u :=
  ⟨Nat.le_trans h.1 h'.1, Nat.le_trans h.2 h'.2⟩

end Supply

variable {σ V : Type}

namespace Builder

variable (host : Host σ V)

theorem le_add (b : Builder σ V) (supply : Supply) (e : Event) : supply ≤ (b.add host supply e).2 := by
  cases e with
  | blockEnd => exact ⟨Nat.le_succ _, Nat.le_add_right _ _⟩
  | _ => exact supply.le_refl

theorem le_addAll (b : Builder σ V) (supply : Supply) (events : List Event) :
    supply ≤ (b.addAll host supply events).2 := by
  induction events generalizing b supply with
  | nil => exact supply.le_refl
  | cons e es ih => exact Supply.le_trans (le_add host b supply e) (ih _ _)

end Builder

theorem Store.le_finish (st : Store V) (i : Nat) (host : Host σ V) (memory : σ) (source : List Reply) :
    st.supply ≤ (st.finish i (Sheet.read host memory st.supply source)).supply := by
  have hread : st.supply ≤ (Sheet.read host memory st.supply source).supply := by
    rw [(Sheet.builder_read host memory st.supply source).2]
    exact Builder.le_addAll host _ _ _
  unfold Store.finish
  split <;> exact hread

/-- Whatever a program does, it gives no numbers back. -/
theorem Store.le_step (st : Store V) (a : Action V) : st.supply ≤ (st.step a).supply := by
  cases a with
  | new | ofStyles | sort => exact st.supply.le_refl
  | read i host memory source | parse i host memory css => exact st.le_finish i host memory _
  | build i host memory events => exact Builder.le_addAll host _ _ _
  | block declarations => exact ⟨Nat.le_succ _, Nat.le_refl _⟩
  | style chain k =>
    simp only [Store.step]
    split
    · exact st.supply.le_refl
    · exact ⟨Nat.le_refl _, Nat.le_succ _⟩
  | copy | insert | append =>
    simp only [Store.step]
    split <;> exact st.supply.le_refl

/-! ## Builders with other numbers -/

variable {f g : Nat → Nat} {start s t : Supply}

theorem Relabels.later {t' : Supply} (h : Relabels f g start s t) (ht : t ≤ t') : Relabels f g start s t' :=
  ⟨h.block.later ht.1, h.serial.later ht.2⟩

theorem Style.Within.later {s' : Supply} {x : Style V} (h : x.Within start s) (hs : s ≤ s') : x.Within start s' :=
  ⟨⟨h.block.1, Nat.lt_of_lt_of_le h.block.2 hs.1⟩, ⟨h.serial.1, Nat.lt_of_lt_of_le h.serial.2 hs.2⟩⟩

/-- The builder `b'`, with the supply `t`, has what `b` has with the supply `s`; the styles that were made
    since `start` have other numbers. -/
def Mirrors (start : Supply) (b : Builder σ V) (s : Supply) (b' : Builder σ V) (t : Supply) : Prop :=
  ∃ f g, Relabels f g start s t ∧ (∀ x ∈ b.styles, x.Within start s) ∧
    b' = { b with styles := b.styles.map (Style.renumber f g) }

variable {b b' : Builder σ V}

theorem mirrors_new (memory : σ) (s t : Supply) : Mirrors s ({ memory } : Builder σ V) s { memory } t :=
  ⟨id, id, ⟨renumbers_none, renumbers_none⟩, by simp, rfl⟩

/-- Others use up numbers. -/
theorem Mirrors.later {t' : Supply} (h : Mirrors start b s b' t) (ht : t ≤ t') : Mirrors start b s b' t' := by
  obtain ⟨f, g, hrelabels, hrest⟩ := h
  exact ⟨f, g, hrelabels.later ht, hrest⟩

theorem addValue_styles (host : Host σ V) (b : Builder σ V) (xs : List (Style V)) (text : String) :
    ({ b with styles := xs } : Builder σ V).addValue host text = { b.addValue host text with styles := xs } := by
  obtain ⟨memory, selector, chain, waiting, declarations, property, styles⟩ := b
  cases property with
  | none => rfl
  | some p =>
    simp only [Builder.addValue]
    split <;> rfl

/-- Events other than the end of a block leave the styles as they are, and do not look at them. -/
theorem add_styles (host : Host σ V) (b : Builder σ V) (xs : List (Style V)) (s t : Supply) {e : Event}
    (h : e ≠ .blockEnd) :
    (b.add host s e).1.styles = b.styles ∧ (b.add host s e).2 = s ∧
      ({ b with styles := xs } : Builder σ V).add host t e = ({ (b.add host s e).1 with styles := xs }, t) := by
  cases e with
  | blockEnd => exact absurd rfl h
  | value text =>
    refine ⟨Builder.styles_addValue host b text, rfl, ?_⟩
    simp only [Builder.add, addValue_styles]
  | _ => exact ⟨rfl, rfl, rfl⟩

/-- The styles on a new block, with the next numbers of either supply. -/
theorem newStyles_renumber {number number' : Nat} (cs : List Chain) (d : Declarations V) (hblock : f number = number')
    (hserial : ∀ k, g (s.serial + k) = t.serial + k) :
    (s.newStyles cs ⟨number, d⟩).1.map (Style.renumber f g) = (t.newStyles cs ⟨number', d⟩).1 := by
  unfold Supply.newStyles
  rw [List.zipIdx_eq_map_add (i := s.serial), List.zipIdx_eq_map_add (i := t.serial)]
  simp only [List.map_map, Function.comp_def, Style.renumber, Style.of, hblock, hserial]

theorem within_newStyles {cs : List Chain} {d : Declarations V} {x : Style V} (hs : start ≤ s)
    (hx : x ∈ ((s.newBlock d).2.newStyles cs (s.newBlock d).1).1) :
    x.Within start ((s.newBlock d).2.newStyles cs (s.newBlock d).1).2 := by
  obtain ⟨c, hc, rfl⟩ := List.mem_map.mp hx
  obtain ⟨hle, hlt, -⟩ := List.mem_zipIdx hc
  exact ⟨⟨hs.1, Nat.lt_succ_self _⟩, ⟨Nat.le_trans hs.2 hle, hlt⟩⟩

theorem Relabels.onward (h : Relabels f g start s t) (k : Nat) :
    Relabels (onward f s.block t.block) (Cascade.onward g s.serial t.serial) start
      ⟨s.block + 1, s.serial + k⟩ ⟨t.block + 1, t.serial + k⟩ :=
  ⟨h.block.onward 1, h.serial.onward k⟩

/-- New numbers do not change those that a style has. -/
theorem renumber_onward {x : Style V} (h : x.Within start s) :
    x.renumber (onward f s.block t.block) (onward g s.serial t.serial) = x.renumber f g := by
  unfold Style.renumber
  rw [onward_old h.block.2, onward_old h.serial.2]

/-- The end of a block takes the next numbers on both sides. -/
theorem mirrors_endBlock (hs : start ≤ s) (h : Mirrors start b s b' t) :
    Mirrors start (b.endBlock s).1 (b.endBlock s).2 (b'.endBlock t).1 (b'.endBlock t).2 := by
  obtain ⟨f, g, hrelabels, hwithin, rfl⟩ := h
  refine ⟨_, _, hrelabels.onward b.waiting.reverse.length, ?_, ?_⟩
  · intro x hx
    simp only [Builder.endBlock, List.reverseAux_eq, List.mem_append, List.mem_reverse] at hx
    rcases hx with hx | hx
    · exact within_newStyles hs hx
    · exact (hwithin x hx).later ⟨Nat.le_succ _, Nat.le_add_right _ _⟩
  · have hnew : ((s.newBlock b.declarations).2.newStyles b.waiting.reverse (s.newBlock b.declarations).1).1.map
        (Style.renumber (onward f s.block t.block) (onward g s.serial t.serial)) =
        ((t.newBlock b.declarations).2.newStyles b.waiting.reverse (t.newBlock b.declarations).1).1 :=
      newStyles_renumber _ _ (onward_new f s.block t.block 0) (onward_new g s.serial t.serial)
    have hold : b.styles.map (Style.renumber (onward f s.block t.block) (onward g s.serial t.serial)) =
        b.styles.map (Style.renumber f g) :=
      List.map_congr_left fun x hx => renumber_onward (hwithin x hx)
    simp only [Builder.endBlock, List.reverseAux_eq, List.map_append, List.map_reverse, hnew, hold]

/-- What one event does to a builder, it does to the other. -/
theorem mirrors_add (host : Host σ V) (hs : start ≤ s) (h : Mirrors start b s b' t) (e : Event) :
    Mirrors start (b.add host s e).1 (b.add host s e).2 (b'.add host t e).1 (b'.add host t e).2 := by
  by_cases he : e = .blockEnd
  · subst he
    exact mirrors_endBlock hs h
  · obtain ⟨f, g, hrelabels, hwithin, rfl⟩ := h
    obtain ⟨hstyles, hsupply, -⟩ := add_styles host b [] s t he
    have hadd := (add_styles host b (b.styles.map (Style.renumber f g)) s t he).2.2
    rw [hadd, hsupply]
    exact ⟨f, g, hrelabels, by rwa [hstyles], by rw [hstyles]⟩

theorem mirrors_addAll (host : Host σ V) (hs : start ≤ s) (h : Mirrors start b s b' t) (events : List Event) :
    Mirrors start (b.addAll host s events).1 (b.addAll host s events).2 (b'.addAll host t events).1
      (b'.addAll host t events).2 := by
  induction events generalizing b b' s t with
  | nil => exact h
  | cons e es ih => exact ih (Supply.le_trans hs (Builder.le_add host b s e)) (mirrors_add host hs h e)

/-! ## Builds -/

theorem memory_of_mirrors (h : Mirrors start b s b' t) : b'.memory = b.memory := by
  obtain ⟨f, g, -, -, rfl⟩ := h
  rfl

/-- The sheets of builders that mirror each other. -/
theorem sheet_of_mirrors (h : Mirrors start b s b' t) :
    Alike (Sheet.ofStyles b'.finished).styles (Sheet.ofStyles b.finished).styles ∧
      ∀ indent r, (Sheet.ofStyles b'.finished).toText indent r = (Sheet.ofStyles b.finished).toText indent r := by
  obtain ⟨f, g, hrelabels, hwithin, rfl⟩ := h
  have hfinished : ({ b with styles := b.styles.map (Style.renumber f g) } : Builder σ V).finished =
      b.finished.map (Style.renumber f g) := List.map_reverse.symm
  have hmem : ∀ x ∈ b.finished, x.Within start s := fun x hx => hwithin x (List.mem_reverse.mp hx)
  rw [hfinished]
  exact ⟨Sheet.alike_ofStyles_renumber hrelabels hmem, Sheet.toText_renumber hrelabels hmem⟩

namespace Build

/-- Where nothing is refused, the chunks are read as one. -/
theorem feedAll_of_run (host : Host σ V) (b : Build σ V) (supply : Supply) {chunks : List (List UInt8)}
    (h : (b.reader.run chunks.flatten).fault? = none) :
    b.feedAll host supply chunks = b.feed host supply chunks.flatten := by
  induction chunks generalizing b supply with
  | nil => rfl
  | cons c rest ih =>
    rw [List.flatten_cons] at h
    have hc : (b.reader.run c).fault? = none := Reader.fault_of_append h
    rw [Reader.run_append, Outcome.andThen_of_none hc] at h
    have hrun : b.reader.run (c ++ rest.flatten) = _ := Reader.run_append ..
    rw [Outcome.andThen_of_none hc] at hrun
    rw [feedAll_cons, ih _ _ h, List.flatten_cons, feed, feed, feed, hrun, Builder.addAll_append]

/-- The sheet of a build that was fed a text of rules, in whatever chunks, holds the styles made of them. -/
theorem sheet_of_text (host : Host σ V) (memory : σ) (supply : Supply) {chunks : List (List UInt8)}
    {rs : List Grammar.Rule} (h : Grammar.SheetText chunks.flatten rs) :
    ((Build.new memory).feedAll host supply chunks).1.sheet = .ofStyles (made host memory supply rs).styles := by
  obtain ⟨l, hrun⟩ := Reader.run_sheet h
  have hbuilt : ({ memory } : Builder σ V).addAll host supply (Grammar.events rs) = _ :=
    Builder.addAll_events host supply memory [] rs
  rw [feedAll_of_run host (.new memory) supply (by rw [new, hrun])]
  simp only [feed, new, hrun, hbuilt, sheet, Builder.between, Builder.finished, List.nil_append, List.reverse_reverse]

end Build

namespace Bench

variable {ι : Type} {σ V : ι → Type} {W : Type} {i : ι}

/-- A build on the bench is where the same build is that is fed alone. -/
structure Matches (start : Supply) (bench : Bench σ V W) (alone : Build (σ i) (V i)) (supply : Supply) : Prop where
  reader : (bench.build i).reader = alone.reader
  builder : Mirrors start alone.builder supply (bench.build i).builder bench.store.supply

theorem matches_new (memories : ∀ i, σ i) (store : Store W) (supply : Supply) :
    Matches supply (Bench.new (V := V) memories store) (Build.new (memories i)) supply :=
  ⟨rfl, mirrors_new _ _ _⟩

variable [DecidableEq ι]

/-- The build takes a turn. -/
theorem matches_feed {start supply : Supply} {bench : Bench σ V W} {alone : Build (σ i) (V i)}
    (hosts : ∀ i, Host (σ i) (V i)) (hs : start ≤ supply) (h : Matches start bench alone supply) (chunk : List UInt8) :
    Matches start (bench.turn hosts (.feed i chunk)) (alone.feed (hosts i) supply chunk).1
      (alone.feed (hosts i) supply chunk).2 := by
  have hbuild : (bench.turn hosts (.feed i chunk)).build i =
      ((bench.build i).feed (hosts i) bench.store.supply chunk).1 := Function.update_self ..
  refine ⟨?_, ?_⟩
  · rw [hbuild]
    simp only [Build.feed, h.reader]
  · rw [hbuild]
    simp only [turn, Build.feed, h.reader]
    exact mirrors_addAll (hosts i) hs h.builder _

/-- Another build takes a turn, or the program does. -/
theorem matches_other {start supply : Supply} {bench : Bench σ V W} {alone : Build (σ i) (V i)}
    (hosts : ∀ i, Host (σ i) (V i)) (h : Matches start bench alone supply) {t : Turn ι W}
    (ht : ∀ chunk, t ≠ .feed i chunk) : Matches start (bench.turn hosts t) alone supply := by
  cases t with
  | feed k chunk =>
    have hne : i ≠ k := by
      rintro rfl
      exact ht chunk rfl
    have hbuild : (bench.turn hosts (.feed k chunk)).build i = bench.build i := Function.update_of_ne hne ..
    refine ⟨by rw [hbuild, h.reader], ?_⟩
    rw [hbuild]
    exact h.builder.later (Builder.le_addAll (hosts k) _ _ _)
  | other action => exact ⟨h.reader, h.builder.later (bench.store.le_step action)⟩

theorem matches_run {start supply : Supply} {bench : Bench σ V W} {alone : Build (σ i) (V i)}
    (hosts : ∀ i, Host (σ i) (V i)) (hs : start ≤ supply) (h : Matches start bench alone supply)
    (turns : List (Turn ι W)) :
    Matches start (bench.run hosts turns) (alone.feedAll (hosts i) supply (Turn.chunksFor i turns)).1
      (alone.feedAll (hosts i) supply (Turn.chunksFor i turns)).2 := by
  induction turns generalizing bench alone supply with
  | nil => exact h
  | cons t turns ih =>
    rw [run_cons]
    cases t with
    | feed k chunk =>
      by_cases hk : k = i
      · subst hk
        rw [Turn.chunksFor, if_pos rfl, Build.feedAll_cons]
        exact ih (Supply.le_trans hs (Builder.le_addAll (hosts k) _ _ _)) (matches_feed hosts hs h chunk)
      · rw [Turn.chunksFor, if_neg hk]
        exact ih hs (matches_other hosts h fun c hc => hk (Turn.feed.inj hc).1)
    | other action => exact ih hs (matches_other hosts h fun c hc => by cases hc)

/-- Whatever the others do in between, and wherever the numbers start, a build is where it would be if it had
    been fed its chunks alone: its sheet has the same styles in the same order, the same ones share a block,
    and the text is the same. -/
theorem sheet_undisturbed (hosts : ∀ i, Host (σ i) (V i)) (memories : ∀ i, σ i) (store : Store W)
    (turns : List (Turn ι W)) (i : ι) (supply : Supply) :
    let build := ((Bench.new memories store).run hosts turns).build i
    let alone := ((Build.new (memories i)).feedAll (hosts i) supply (Turn.chunksFor i turns)).1
    build.reader = alone.reader ∧ build.builder.memory = alone.builder.memory ∧
      Alike build.sheet.styles alone.sheet.styles ∧
      ∀ indent r, build.sheet.toText indent r = alone.sheet.toText indent r := by
  intro build alone
  have hmatches := matches_run hosts supply.le_refl (matches_new (i := i) memories store supply) turns
  exact ⟨hmatches.reader, memory_of_mirrors hmatches.builder, sheet_of_mirrors hmatches.builder⟩

end Bench

end Cascade
