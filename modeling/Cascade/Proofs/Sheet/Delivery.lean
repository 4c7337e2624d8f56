/-
  Cascade.Proofs.Sheet.Delivery — what of its text a sheet delivers.

  A sink of bytes may be anything that replies to writes: a `ByteDevice` has a state of its
  own, and what it replies may depend on all that it was offered. `Writes` is the writing of
  bytes to a device, one constructor for each kind of reply, and `Delivers` the writing with
  the flush after it. A sink that is given by its replies is such a device
  (`delivers_replies`).

  1. Whatever a device does, what it has taken when the writing is over is a start of the
     bytes, and it is all of them exactly where no write failed (`taken_of_writes`).
  2. A device that interrupts no write for ever is written to the end (`delivers_of_patient`).
  3. All sinks get one text, that of the sheet. A sink of bytes that is written to the end
     has all of it or says why not, and only then is it flushed; a sink of text is given all
     of it in one call (`same_text_delivered`).
-/

import Cascade.Sink

namespace Cascade

/-- A sink of bytes with a state of its own. -/
structure ByteDevice (τ : Type) where
  write : τ → List UInt8 → WriteReply × τ
  /-- Why the flush fails, if it does. -/
  flush : τ → Option IoFault × τ

namespace ByteDevice

variable {τ : Type} (device : ByteDevice τ)

/-- Writing bytes: what of them was taken, and the fault that ended it. -/
inductive Writes : τ → List UInt8 → List UInt8 → Option IoFault → τ → Prop
  | done {t} : Writes t [] [] none t
  | took {t t₁ t₂ bs n sent fault?} : bs ≠ [] → device.write t bs = (.took (n + 1), t₁) →
      Writes t₁ (bs.drop (n + 1)) sent fault? t₂ → Writes t bs (bs.take (n + 1) ++ sent) fault? t₂
  | interrupted {t t₁ t₂ bs sent fault?} : bs ≠ [] → device.write t bs = (.interrupted, t₁) →
      Writes t₁ bs sent fault? t₂ → Writes t bs sent fault? t₂
  | nothing {t t₁ bs} : bs ≠ [] → device.write t bs = (.took 0, t₁) → Writes t bs [] (some .nothingWritten) t₁
  | failed {t t₁ bs fault} : bs ≠ [] → device.write t bs = (.failed fault, t₁) → Writes t bs [] (some fault) t₁

/-- Writing bytes, and then the flush if all of them were taken. -/
inductive Delivers (t : τ) (bs : List UInt8) : Delivery → τ → Prop
  | broken {sent fault t₁} : device.Writes t bs sent (some fault) t₁ → Delivers t bs ⟨sent, false, some fault⟩ t₁
  | flushed {sent fault? t₁ t₂} : device.Writes t bs sent none t₁ → device.flush t₁ = (fault?, t₂) →
      Delivers t bs ⟨sent, true, fault?⟩ t₂

variable {device} {t t' t₁ : τ} {bs sent : List UInt8} {fault? : Option IoFault} {o : Delivery}

/-! ## What is taken -/

theorem taken_of_writes (h : device.Writes t bs sent fault? t') : sent <+: bs ∧ (fault? = none ↔ sent = bs) := by
  induction h with
  | done => simp
  | @took t t₁ t₂ bs n sent fault? hbs hreply hrest ih =>
    obtain ⟨⟨rest, hstarts⟩, hwhole⟩ := ih
    have hcut : bs.take (n + 1) ++ bs.drop (n + 1) = bs := List.take_append_drop _ bs
    refine ⟨⟨rest, by rw [List.append_assoc, hstarts, hcut]⟩, hwhole.trans ⟨?_, fun hall => ?_⟩⟩
    · rintro rfl
      exact hcut
    · exact List.append_cancel_left (hall.trans hcut.symm)
  | interrupted hbs hreply hrest ih => exact ih
  | nothing hbs hreply => simp [Ne.symm hbs]
  | failed hbs hreply => simp [Ne.symm hbs]

/-- Which writing it can be when the device replies so to the first write. -/
def After (device : ByteDevice τ) : WriteReply → τ → List UInt8 → List UInt8 → Option IoFault → τ → Prop
  | .took 0, t₁, _, sent, fault?, t' => sent = [] ∧ fault? = some .nothingWritten ∧ t' = t₁
  | .took (n + 1), t₁, bs, sent, fault?, t' =>
    ∃ rest, sent = bs.take (n + 1) ++ rest ∧ device.Writes t₁ (bs.drop (n + 1)) rest fault? t'
  | .interrupted, t₁, bs, sent, fault?, t' => device.Writes t₁ bs sent fault? t'
  | .failed fault, t₁, _, sent, fault?, t' => sent = [] ∧ fault? = some fault ∧ t' = t₁

theorem after_reply {reply : WriteReply} (hbs : bs ≠ []) (hreply : device.write t bs = (reply, t₁))
    (h : device.Writes t bs sent fault? t') : After device reply t₁ bs sent fault? t' := by
  cases h with
  | done => exact absurd rfl hbs
  | took _ hreply' hrest =>
    cases hreply.symm.trans hreply'
    exact ⟨_, rfl, hrest⟩
  | interrupted _ hreply' hrest =>
    cases hreply.symm.trans hreply'
    exact hrest
  | nothing _ hreply' | failed _ hreply' =>
    cases hreply.symm.trans hreply'
    exact ⟨rfl, rfl, rfl⟩

/-- The replies decide how the writing goes. -/
theorem writes_unique {sent' : List UInt8} {fault?' : Option IoFault} (h : device.Writes t bs sent fault? t')
    (h' : device.Writes t bs sent' fault?' t₁) : sent' = sent ∧ fault?' = fault? ∧ t₁ = t' := by
  induction h generalizing sent' with
  | done =>
    cases h' with
    | done => exact ⟨rfl, rfl, rfl⟩
    | took hbs | interrupted hbs | nothing hbs | failed hbs => exact absurd rfl hbs
  | took hbs hreply hrest ih =>
    obtain ⟨rest, rfl, hrest'⟩ := after_reply hbs hreply h'
    obtain ⟨rfl, hfault, ht⟩ := ih hrest'
    exact ⟨rfl, hfault, ht⟩
  | interrupted hbs hreply hrest ih => exact ih (after_reply hbs hreply h')
  | nothing hbs hreply => exact after_reply hbs hreply h'
  | failed hbs hreply => exact after_reply hbs hreply h'

/-- A device that is written to the end has a start of the bytes. It has all of them, and is flushed, exactly where
    no write failed. -/
theorem taken_of_delivers (h : device.Delivers t bs o t') :
    o.bytes <+: bs ∧
    (o.fault? = none ↔ o.bytes = bs ∧ ∃ t₁, device.Writes t bs bs none t₁ ∧ device.flush t₁ = (none, t')) ∧
    (∀ sent fault t₁, device.Writes t bs sent (some fault) t₁ →
      sent ≠ bs ∧ o = ⟨sent, false, some fault⟩ ∧ t' = t₁) := by
  cases h with
  | @broken sent fault _ hwrites =>
    obtain ⟨hstarts, hwhole⟩ := taken_of_writes hwrites
    have hshort : sent ≠ bs := fun hall => nomatch hwhole.mpr hall
    refine ⟨hstarts, by simp [hshort], ?_⟩
    intro sent' fault' t₁ hwrites'
    obtain ⟨rfl, hfault, rfl⟩ := writes_unique hwrites hwrites'
    cases hfault
    exact ⟨hshort, rfl, rfl⟩
  | @flushed sent fault? t₂ _ hwrites hflush =>
    obtain ⟨hstarts, hwhole⟩ := taken_of_writes hwrites
    obtain rfl : sent = bs := hwhole.mp rfl
    refine ⟨hstarts, ⟨?_, ?_⟩, ?_⟩
    · rintro rfl
      exact ⟨rfl, t₂, hwrites, hflush⟩
    · rintro ⟨-, t₁, hwrites', hflush'⟩
      obtain ⟨-, -, rfl⟩ := writes_unique hwrites hwrites'
      exact (Prod.ext_iff.mp (hflush.symm.trans hflush')).1
    · intro sent' fault' t₁ hwrites'
      exact nomatch (writes_unique hwrites hwrites').2.1

/-! ## A device that is written to the end -/

/-- No write is interrupted for ever. -/
def Patient (device : ByteDevice τ) : Prop :=
  ∀ bs, WellFounded fun t₁ t => device.write t bs = (.interrupted, t₁)

theorem writes_of_patient (h : device.Patient) (t : τ) (bs : List UInt8) :
    ∃ sent fault? t', device.Writes t bs sent fault? t' := by
  induction hlength : bs.length using Nat.strongRecOn generalizing t bs with | ind k ihLength
  by_cases hbs : bs = []
  · subst hbs
    exact ⟨[], none, t, .done⟩
  -- the bytes that are left grow fewer with each write, but for those that are interrupted
  induction t using (h bs).induction with | _ t ihReply
  rcases hreply : device.write t bs with ⟨reply, t₁⟩
  match reply with
  | .took 0 => exact ⟨[], _, t₁, .nothing hbs hreply⟩
  | .took (n + 1) =>
    have hless : (bs.drop (n + 1)).length < k := by
      have := List.length_pos_iff.mpr hbs
      rw [List.length_drop]
      omega
    obtain ⟨sent, fault?, t', hrest⟩ := ihLength _ hless t₁ (bs.drop (n + 1)) rfl
    exact ⟨_, fault?, t', .took hbs hreply hrest⟩
  | .interrupted =>
    obtain ⟨sent, fault?, t', hrest⟩ := ihReply t₁ hreply
    exact ⟨sent, fault?, t', .interrupted hbs hreply hrest⟩
  | .failed fault => exact ⟨[], some fault, t₁, .failed hbs hreply⟩

theorem delivers_of_patient (h : device.Patient) (t : τ) (bs : List UInt8) : ∃ o t', device.Delivers t bs o t' := by
  obtain ⟨sent, fault?, t₁, hwrites⟩ := writes_of_patient h t bs
  cases fault? with
  | some fault => exact ⟨_, t₁, .broken hwrites⟩
  | none => exact ⟨_, (device.flush t₁).2, .flushed hwrites rfl⟩

end ByteDevice

/-! ## A sink that is given by its replies -/

namespace ByteSink

variable (sink : ByteSink)

/-- The sink as a device; its state is the replies that are left. -/
def device : ByteDevice (List WriteReply) where
  write
    | [], bs => (.took bs.length, [])
    | reply :: rest, _ => (reply, rest)
  flush replies := (sink.flush, replies)

theorem writes_replies (told bs : List UInt8) (replies : List WriteReply) :
    ∃ sent rest, (writeAll told bs replies).1 = told.reverse ++ sent ∧
      sink.device.Writes replies bs sent (writeAll told bs replies).2 rest := by
  fun_induction writeAll told bs replies with
  | case1 => exact ⟨[], _, by simp, .done⟩
  | case2 told bs hbs =>
    obtain ⟨b, bs, rfl⟩ := List.exists_cons_of_ne_nil hbs
    refine ⟨b :: bs, [], rfl, ?_⟩
    have hrest : sink.device.Writes [] ((b :: bs).drop (bs.length + 1)) [] none [] := by simpa using .done
    simpa using ByteDevice.Writes.took hbs rfl hrest
  | case3 told rest bs hbs ih =>
    obtain ⟨sent, left, hsent, hwrites⟩ := ih
    exact ⟨sent, left, hsent, .interrupted hbs rfl hwrites⟩
  | case4 told bs fault rest hbs => exact ⟨[], rest, by simp, .failed hbs rfl⟩
  | case5 told bs rest hbs => exact ⟨[], rest, by simp, .nothing hbs rfl⟩
  | case6 told bs n rest hbs ih =>
    obtain ⟨sent, left, hsent, hwrites⟩ := ih
    exact ⟨bs.take (n + 1) ++ sent, left, by simp [hsent], .took hbs rfl hwrites⟩

theorem delivers_replies (bs : List UInt8) : ∃ rest, sink.device.Delivers sink.replies bs (sink.deliver bs) rest := by
  obtain ⟨sent, rest, hsent, hwrites⟩ := sink.writes_replies [] bs sink.replies
  unfold deliver
  rcases hrun : writeAll [] bs sink.replies with ⟨sent', fault?⟩
  rw [hrun] at hsent hwrites
  obtain rfl : sent' = sent := hsent
  cases fault? with
  | some fault => exact ⟨rest, .broken hwrites⟩
  | none => exact ⟨rest, .flushed hwrites rfl⟩

/-- The replies of a device to the writes are a list. -/
theorem exists_replies {τ : Type} {device : ByteDevice τ} {t t' : τ} {bs sent : List UInt8} {fault? : Option IoFault}
    (h : device.Writes t bs sent fault? t') :
    ∃ replies, ∀ told, writeAll told bs replies = (told.reverse ++ sent, fault?) := by
  induction h with
  | done => exact ⟨[], fun told => by simp [writeAll]⟩
  | @took t t₁ t₂ bs n sent fault? hbs hreply hrest ih =>
    obtain ⟨replies, hrun⟩ := ih
    refine ⟨.took (n + 1) :: replies, fun told => ?_⟩
    rw [writeAll.eq_6 _ _ _ _ hbs, hrun]
    simp
  | interrupted hbs hreply hrest ih =>
    obtain ⟨replies, hrun⟩ := ih
    exact ⟨.interrupted :: replies, fun told => by rw [writeAll.eq_3 _ _ _ hbs, hrun]⟩
  | nothing hbs hreply => exact ⟨[.took 0], fun told => by rw [writeAll.eq_5 _ _ _ hbs]; simp⟩
  | @failed t t₁ bs fault hbs hreply =>
    exact ⟨[.failed fault], fun told => by rw [writeAll.eq_4 _ _ _ _ hbs]; simp⟩

/-- Whatever a device does, there is a sink given by its replies that is delivered the same. -/
theorem exists_sink {τ : Type} {device : ByteDevice τ} {t t' : τ} {bs : List UInt8} {o : Delivery}
    (h : device.Delivers t bs o t') : ∃ sink : ByteSink, sink.deliver bs = o := by
  cases h with
  | broken hwrites =>
    obtain ⟨replies, hrun⟩ := exists_replies hwrites
    exact ⟨⟨replies, none⟩, by simp [deliver, hrun]⟩
  | @flushed sent fault? _ _ hwrites _ =>
    obtain ⟨replies, hrun⟩ := exists_replies hwrites
    exact ⟨⟨replies, fault?⟩, by simp [deliver, hrun]⟩

end ByteSink

/-- What is delivered of a text to a sink that is flushed with this outcome: no byte that is not of the text, success
    exactly where all of it is there and flushed, and no flush where a write failed. -/
structure Delivery.Honest (o : Delivery) (text : List UInt8) (flush : Option IoFault) : Prop where
  starts : o.bytes <+: text
  ok : o.fault? = none ↔ o.bytes = text ∧ flush = none
  unflushed : o.flushed = false → o.bytes ≠ text ∧ o.fault? ≠ none
  flushed : o.flushed = true → o.bytes = text ∧ o.fault? = flush

theorem ByteSink.honest_deliver (sink : ByteSink) (bs : List UInt8) : (sink.deliver bs).Honest bs sink.flush := by
  obtain ⟨rest, hdelivers⟩ := sink.delivers_replies bs
  generalize sink.deliver bs = o at hdelivers ⊢
  cases hdelivers with
  | @broken sent fault _ hwrites =>
    obtain ⟨hstarts, hwhole⟩ := ByteDevice.taken_of_writes hwrites
    have hshort : sent ≠ bs := fun hall => nomatch hwhole.mpr hall
    exact ⟨hstarts, by simp [hshort], fun _ => ⟨hshort, by simp⟩, by simp⟩
  | @flushed sent fault? t₁ _ hwrites hflush =>
    obtain ⟨hstarts, hwhole⟩ := ByteDevice.taken_of_writes hwrites
    obtain rfl : sent = bs := hwhole.mp rfl
    obtain rfl : sink.flush = fault? := congrArg Prod.fst hflush
    exact ⟨hstarts, by simp, by simp, fun _ => ⟨rfl, rfl⟩⟩

/-- The sink of text that also keeps the texts it is given. -/
def TextSink.recording {τ : Type} (sink : TextSink τ) : TextSink (τ × List String) := fun (state, texts) text =>
  let (accepted, state) := sink state text
  (accepted, state, texts ++ [text])

namespace Sheet

variable {V : Type}

/-- Each sink gets the one text of the sheet. A sink of bytes has a start of it when the writing is over. The writing
    succeeds exactly where the sink has all of it and the flush succeeds, and after a failed write it has less than all
    and is not flushed. All this holds of each device too, and for each there is a sink that is delivered the same, as
    each sink is a device. A sink of text is given all of it in one call, and the writing fails exactly where it does. -/
theorem same_text_delivered (s : Sheet V) (indent : String) (r : Rendering V) :
    (∀ sink : ByteSink, (s.writeBytes sink indent r).Honest (Utf8.bytes (s.toText indent r)) sink.flush ∧
      ∃ rest, sink.device.Delivers sink.replies (Utf8.bytes (s.toText indent r)) (s.writeBytes sink indent r) rest) ∧
    (∀ {τ : Type} (device : ByteDevice τ) (t t' : τ) (o : Delivery),
      device.Delivers t (Utf8.bytes (s.toText indent r)) o t' →
        (∃ sink : ByteSink, s.writeBytes sink indent r = o) ∧
        o.bytes <+: Utf8.bytes (s.toText indent r) ∧
        (o.fault? = none ↔ o.bytes = Utf8.bytes (s.toText indent r) ∧
          ∃ t₁, device.Writes t (Utf8.bytes (s.toText indent r)) (Utf8.bytes (s.toText indent r)) none t₁ ∧
            device.flush t₁ = (none, t')) ∧
        (∀ sent fault t₁, device.Writes t (Utf8.bytes (s.toText indent r)) sent (some fault) t₁ →
          sent ≠ Utf8.bytes (s.toText indent r) ∧ o = ⟨sent, false, some fault⟩ ∧ t' = t₁)) ∧
    (∀ {τ : Type} (device : ByteDevice τ) (t : τ), device.Patient →
      ∃ o t', device.Delivers t (Utf8.bytes (s.toText indent r)) o t') ∧
    (∀ {τ : Type} (sink : TextSink τ) (state : τ),
      (s.writeText sink.recording (state, []) indent r).2.2 = [s.toText indent r] ∧
      (s.writeText sink state indent r).2 = (sink state (s.toText indent r)).2 ∧
      (s.writeText sink state indent r).1 = if (sink state (s.toText indent r)).1 then none else some .format) := by
  refine ⟨?_, ?_, ?_, ?_⟩
  · intro sink
    exact ⟨sink.honest_deliver _, sink.delivers_replies _⟩
  · intro τ device t t' o hdelivers
    exact ⟨ByteSink.exists_sink hdelivers, ByteDevice.taken_of_delivers hdelivers⟩
  · intro τ device t hpatient
    exact ByteDevice.delivers_of_patient hpatient t _
  · intro τ sink state
    exact ⟨rfl, rfl, rfl⟩

end Sheet

end Cascade
