/-
  Cascade.Proofs.Tool.Files — what writing a file leaves as it was. The place of a file that
  is written is in a directory that is there already, and is itself no directory, so that no
  way to anything else goes through it. Nothing but what is at that place differs, and the
  path that the file was written at leads to it (`onlyWrote_of_write`).

  To write a file is to make it empty and to write at its end, at once (`write_eq`) or piece
  by piece (`extend_extend`).
-/

import Cascade.Proofs.Sheet.Reading
import Cascade.Tool.Session

namespace Cascade

namespace Workspace

variable {w w' : Workspace} {p q d : Path} {path last name : String} {names ns ms : List String} {bytes : List UInt8}
  {item : Item}

/-- The path is a start of that to the home or to something. -/
def Leads (w : Workspace) (q : Path) : Prop := q <+: w.home ∨ ∃ e ∈ w.items, q <+: e.1

/-- The path is that of a directory which is there, with a name below it. -/
def Inside (w : Workspace) (p : Path) : Prop := ∃ d last, p = d ++ [last] ∧ w.item? d = some .directory

/-- Nothing but what is at a place differs. -/
structure SameBut (w : Workspace) (p : Path) (w' : Workspace) : Prop where
  home : w'.home = w.home
  elsewhere : ∀ q, q ≠ p → w'.item? q = w.item? q

/-- The file at a path has been written, and nothing else. -/
structure OnlyWrote (w : Workspace) (path : String) (bytes : List UInt8) (w' : Workspace) : Prop where
  written : ∃ p, w.place path = .ok p ∧ w.item? p ≠ some .directory ∧ w'.item? p = some (.file bytes) ∧ w.SameBut p w'
  opened : w'.openFile path = .ok (Source.replies bytes)

/-! ## The item at a path -/

theorem item?_of_lookup (h : w.items.lookup q = some item) : w.item? q = some item := by
  unfold item?
  rw [h]

theorem item?_of_leads (hnone : w.items.lookup q = none) (h : w.Leads q) : w.item? q = some .directory := by
  have htrue : (q.isPrefixOf w.home || w.items.any fun e => q.isPrefixOf e.1) = true := by
    simpa [Leads] using h
  unfold item?
  rw [hnone]
  exact if_pos htrue

theorem item?_of_not_leads (hnone : w.items.lookup q = none) (h : ¬ w.Leads q) : w.item? q = none := by
  have hfalse : ¬ (q.isPrefixOf w.home || w.items.any fun e => q.isPrefixOf e.1) = true := by
    simpa [Leads] using h
  unfold item?
  rw [hnone]
  exact if_neg hfalse

/-- A way leads through all that is there, and through what is above that. -/
theorem leads_of_item (h : w.item? d = some item) (hq : q <+: d) : w.Leads q := by
  cases hlookup : w.items.lookup d with
  | some found =>
    obtain ⟨before, after, hitems, -⟩ := List.lookup_eq_some_iff.mp hlookup
    exact .inr ⟨(d, found), by simp [hitems], hq⟩
  | none =>
    by_cases hleads : w.Leads d
    · rcases hleads with hhome | ⟨e, he, hd⟩
      · exact .inl (hq.trans hhome)
      · exact .inr ⟨e, he, hq.trans hd⟩
    · rw [item?_of_not_leads hlookup hleads] at h
      cases h

/-! ## Setting an item -/

@[simp] theorem item?_set_same (w : Workspace) (p : Path) (item : Item) : (w.set p item).item? p = some item :=
  item?_of_lookup (by simp [lookup_set])

@[simp] theorem set_set (w : Workspace) (p : Path) (old item : Item) : (w.set p old).set p item = w.set p item := by
  simp [set, List.filter_filter]

theorem mem_set {e : Path × Item} : e ∈ (w.set p item).items ↔ e = (p, item) ∨ e ∈ w.items ∧ e.1 ≠ p := by
  simp [set]

theorem leads_set (hp : w.Inside p) (hq : q ≠ p) : (w.set p item).Leads q ↔ w.Leads q := by
  obtain ⟨d, last, rfl, hd⟩ := hp
  constructor
  · rintro (hhome | ⟨e, he, hprefix⟩)
    · exact .inl hhome
    · rcases mem_set.mp he with rfl | ⟨he, -⟩
      · exact leads_of_item hd ((List.prefix_concat_iff.mp hprefix).resolve_left hq)
      · exact .inr ⟨e, he, hprefix⟩
  · rintro (hhome | ⟨e, he, hprefix⟩)
    · exact .inl hhome
    · by_cases hsame : e.1 = d ++ [last]
      · exact .inr ⟨(d ++ [last], item), mem_set.mpr (.inl rfl), hsame ▸ hprefix⟩
      · exact .inr ⟨e, mem_set.mpr (.inr ⟨he, hsame⟩), hprefix⟩

theorem sameBut_set (hp : w.Inside p) (item : Item) : w.SameBut p (w.set p item) := by
  refine ⟨rfl, fun q hq => ?_⟩
  have hlookup : (w.set p item).items.lookup q = w.items.lookup q := by rw [lookup_set, if_neg hq]
  cases hfound : w.items.lookup q with
  | some found => rw [item?_of_lookup hfound, item?_of_lookup (hlookup.trans hfound)]
  | none =>
    by_cases hleads : w.Leads q
    · rw [item?_of_leads hfound hleads, item?_of_leads (hlookup.trans hfound) ((leads_set hp hq).mpr hleads)]
    · rw [item?_of_not_leads hfound hleads,
        item?_of_not_leads (hlookup.trans hfound) (mt (leads_set hp hq).mp hleads)]

/-! ## Following names -/

theorem follow_cons_ok (h : w.follow p (name :: names) = .ok q) :
    w.item? p = some .directory ∧ w.follow (p.step name) names = .ok q ∧ name.utf8ByteSize ≤ longestName := by
  unfold follow at h
  split at h
  · cases h
  · cases h
  · split at h
    · cases h
    · exact ⟨‹_›, h, by omega⟩

theorem follow_cons (hd : w.item? p = some .directory) (hname : name.utf8ByteSize ≤ longestName) :
    w.follow p (name :: names) = w.follow (p.step name) names := by
  have hshort : ¬ longestName < name.utf8ByteSize := by omega
  simp [follow, hd, hshort]

theorem follow_append (h : w.follow p ns = .ok q) : w.follow p (ns ++ ms) = w.follow q ms := by
  induction ns generalizing p with
  | nil =>
    cases h
    rfl
  | cons name ns ih =>
    obtain ⟨hd, hrest, hname⟩ := follow_cons_ok h
    rw [List.cons_append, follow_cons hd hname, ih hrest]

theorem follow_append_ok (h : w.follow p (ns ++ ms) = .ok q) : ∃ d, w.follow p ns = .ok d ∧ w.follow d ms = .ok q := by
  induction ns generalizing p with
  | nil => exact ⟨p, rfl, h⟩
  | cons name ns ih =>
    obtain ⟨hd, hrest, hname⟩ := follow_cons_ok h
    obtain ⟨d, hns, hms⟩ := ih hrest
    exact ⟨d, (follow_cons hd hname).trans hns, hms⟩

/-- A way goes on where it went as long as the directories on it are there. -/
theorem follow_of_directories (hkept : ∀ q, w.item? q = some .directory → w'.item? q = some .directory)
    (h : w.follow p names = .ok q) : w'.follow p names = .ok q := by
  induction names generalizing p with
  | nil => exact h
  | cons name names ih =>
    obtain ⟨hd, hrest, hname⟩ := follow_cons_ok h
    exact (follow_cons (hkept p hd) hname).trans (ih hrest)

/-! ## Writing a file -/

/-- Names that do not end in an empty one are not cut. -/
theorem untrimmed {all : List String} (h : ¬ ((all.reverse.dropWhile (· == "")).reverse).length < all.length) :
    (all.reverse.dropWhile (· == "")).reverse = all ∧ all.getLast? ≠ some "" := by
  have hsuffix : all.reverse.dropWhile (· == "") <:+ all.reverse := List.dropWhile_suffix _
  have hsame : all.reverse.dropWhile (· == "") = all.reverse :=
    hsuffix.eq_of_length_le (by simpa using h)
  refine ⟨by rw [hsame, List.reverse_reverse], fun hlast => ?_⟩
  have hhead := List.head?_dropWhile_not (· == "") all.reverse
  rw [hsame, List.head?_reverse, hlast] at hhead
  cases hhead

/-- The names of a path to a file lead to a directory, and then the last of them to the file. -/
theorem place_ok (h : w.place path = .ok p) :
    ∃ above last d, Workspace.names path = .ok (above ++ [last]) ∧ w.follow (w.start (above ++ [last])) above = .ok d ∧
      w.item? d = some .directory ∧ w.follow d [last] = .ok p ∧ p = d ++ [last] := by
  unfold place at h
  cases hnames : Workspace.names path with
  | error e => simp [hnames, bind, Except.bind] at h
  | ok all =>
    simp only [hnames, bind, Except.bind] at h
    cases hfollow : w.follow (w.start all) ((all.reverse.dropWhile (· == "")).reverse.dropLast ++ [""]) with
    | error e =>
      rw [hfollow] at h
      cases h
    | ok d =>
      simp only [hfollow] at h
      split at h
      · cases h
      · rename_i hfile
        rw [not_or, not_or] at hfile
        obtain ⟨hdot, hdots, hlength⟩ := hfile
        obtain ⟨hsame, hempty⟩ := untrimmed hlength
        rw [hsame] at hdot hdots hfollow h
        cases hlast : all.getLast? with
        | none => exact absurd (by rw [hlast]; rfl) hdot
        | some last =>
          rw [hlast, Option.getD_some] at hdot hdots h
          obtain ⟨above, rfl⟩ := List.getLast?_eq_some_iff.mp hlast
          rw [List.dropLast_concat] at hfollow
          obtain ⟨d', habove, hd'⟩ := follow_append_ok hfollow
          obtain ⟨hd, hstep, -⟩ := follow_cons_ok hd'
          obtain rfl : d' = d := by simpa [follow, Path.step] using hstep
          obtain ⟨-, hp, -⟩ := follow_cons_ok h
          have hnonempty : last ≠ "" := fun he => hempty (hlast.trans (congrArg some he))
          refine ⟨above, last, d', rfl, habove, hd, h, ?_⟩
          simpa [follow, Path.step, hnonempty, hdot, hdots] using hp.symm

theorem inside_of_place (h : w.place path = .ok p) : w.Inside p := by
  obtain ⟨above, last, d, -, -, hd, -, hp⟩ := place_ok h
  exact ⟨d, last, hp, hd⟩

theorem write_ok_iff : w.write path bytes = .ok w' ↔
    ∃ p, w.place path = .ok p ∧ w.item? p ≠ some .directory ∧ w' = w.set p (.file bytes) := by
  unfold write
  cases hplace : w.place path with
  | error e => simp [bind, Except.bind]
  | ok p =>
    by_cases hd : w.item? p = some .directory
    · simp [bind, Except.bind, hd]
    · simpa [bind, Except.bind, hd] using eq_comm

/-- A path that a file is at leads to the file. -/
theorem openFile_of_place (h : w.place path = .ok p)
    (hkept : ∀ q, w.item? q = some .directory → w'.item? q = some .directory) (hhome : w'.home = w.home)
    (hfile : w'.item? p = some (.file bytes)) :
    w'.openFile path = .ok (Source.replies bytes) := by
  obtain ⟨above, last, d, hnames, habove, -, hlast, -⟩ := place_ok h
  have hfollow : w'.follow (w'.start (above ++ [last])) (above ++ [last]) = .ok p := by
    have hstart : w'.start (above ++ [last]) = w.start (above ++ [last]) := by
      unfold start
      rw [hhome]
    rw [hstart]
    exact follow_of_directories hkept ((follow_append habove).trans hlast)
  simp [openFile, hnames, hfollow, hfile, bind, Except.bind]

theorem onlyWrote_of_write (h : w.write path bytes = .ok w') : w.OnlyWrote path bytes w' := by
  obtain ⟨p, hplace, hfile, rfl⟩ := write_ok_iff.mp h
  have hsame := sameBut_set (inside_of_place hplace) (.file bytes)
  refine ⟨⟨p, hplace, hfile, item?_set_same w p _, hsame⟩, ?_⟩
  refine openFile_of_place hplace (fun q hq => ?_) rfl (item?_set_same w p _)
  rw [hsame.elsewhere q (by rintro rfl; exact hfile hq), hq]

/-! ## A file call by call -/

/-- What reading on from an offset gives. -/
def readings (w : Workspace) (p : Path) (offset : Nat) : List Reply :=
  match w.item? p with
  | some (.file bytes) => [.bytes (bytes.drop offset)]
  | some .directory => [.failed .isADirectory]
  | none => []

/-- From its start on, a file gives its bytes. -/
theorem served_readings (h : w.item? p = some (.file bytes)) :
    Source.served (w.readings p 0) = bytes ∧ Source.halt? (w.readings p 0) = none := by
  cases bytes <;> simp [readings, h, Source.served, Source.halt?]

/-- To write a file is to make it and to write at its end. -/
theorem write_eq (w : Workspace) (path : String) (bytes : List UInt8) :
    w.write path bytes = (w.create path).map fun made => made.2.extend made.1 bytes := by
  unfold create write
  cases hplace : w.place path with
  | error e => rfl
  | ok p =>
    by_cases hd : w.item? p = some .directory
    · simp [bind, Except.bind, Except.map, hd]
    · simp [bind, Except.bind, Except.map, extend]

theorem create_ok (h : w.create path = .ok (p, w')) :
    w.place path = .ok p ∧ w.item? p ≠ some .directory ∧ w' = w.set p (.file []) := by
  unfold create at h
  cases hplace : w.place path with
  | error e => simp [hplace, bind, Except.bind] at h
  | ok q =>
    cases hwrite : w.write path [] with
    | error e => simp [hplace, hwrite, bind, Except.bind] at h
    | ok w'' =>
      obtain ⟨q', hplace', hfile, rfl⟩ := write_ok_iff.mp hwrite
      cases hplace.symm.trans hplace'
      simp only [hplace, hwrite, bind, Except.bind, Except.ok.injEq, Prod.mk.injEq] at h
      obtain ⟨rfl, rfl⟩ := h
      exact ⟨rfl, hfile, rfl⟩

theorem extend_set (w : Workspace) (p : Path) (before bytes : List UInt8) :
    (w.set p (.file before)).extend p bytes = w.set p (.file (before ++ bytes)) := by
  simp [extend]

theorem extend_extend (w : Workspace) (p : Path) (before after : List UInt8) :
    (w.extend p before).extend p after = w.extend p (before ++ after) := by
  unfold extend
  cases hitem : w.item? p with
  | none => simp [hitem]
  | some item => cases item <;> simp [hitem]

theorem locate_ok (h : w.locate path = .ok p) : w.item? p ≠ none := by
  unfold locate at h
  cases hnames : Workspace.names path with
  | error e => simp [hnames, bind, Except.bind] at h
  | ok all =>
    cases hfollow : w.follow (w.start all) all with
    | error e => simp [hnames, hfollow, bind, Except.bind] at h
    | ok q =>
      simp only [hnames, hfollow, bind, Except.bind] at h
      split at h
      · cases h
      · cases h
        simp_all

/-- What is opened is read from its start. -/
theorem openFile_eq (w : Workspace) (path : String) :
    w.openFile path = (w.locate path).map fun p =>
      match w.item? p with
      | some (.file bytes) => Source.replies bytes
      | some .directory => [.failed .isADirectory]
      | none => [] := by
  unfold openFile locate
  cases Workspace.names path with
  | error e => rfl
  | ok all =>
    simp only [bind, Except.bind]
    cases w.follow (w.start all) all with
    | error e => rfl
    | ok p =>
      cases hitem : w.item? p with
      | none => simp [hitem, Except.map]
      | some item => cases item <;> simp [hitem, Except.map]

end Workspace

end Cascade
