import ScriptReader.Proofs.StreamReaders

/-!
# Positions of streams

A stream is given commands in turn.  Some of them fail, perhaps when they have taken a part of a
lexeme, and the next one goes on from there.  Whatever has happened, the stream stands at the line
and column of its next character, and what it has moved over is a part of its text.

One step moves the stream over the characters between two offsets, as one take of these characters
would.  So a run of characters may be taken in any parts: the texts that are answered follow each
other in the text, and the stream that is left depends on its offset alone.

Main statements:

* `perform_accounted`: what one command does to a stream;
* `through_behind`, `texts_eq`: what commands in turn do;
* `stream_positions`: a stream from the front of a text.
-/

namespace ScriptReader

/-! ## Steps of a cursor -/

/-- Whether a command takes characters and answers with them. -/
def Cursor.Command.takes : Cursor.Command → Bool
  | .take _ => true
  | .takeWhile _ => true
  | .takeUntil _ => true
  | _ => false

theorem Cursor.perform_moves {a : Cursor.Command} (ha : a.IsForward) (c : Cursor) :
    ∃ taken rest, taken ++ rest = c.rest ∧ (c.perform a).2 = c.move taken rest := by
  have hstay : ∃ taken rest, taken ++ rest = c.rest ∧ c = c.move taken rest :=
    ⟨[], c.rest, rfl, (Reading.move_nil rfl).symm⟩
  have hdrop : ∀ n, ∃ taken rest, taken ++ rest = c.rest ∧ c.drop n = c.move taken rest :=
    fun n => ⟨c.rest.take n, c.rest.drop n, List.take_append_drop n c.rest, rfl⟩
  cases a with
  | peek n => exact hstay
  | isAt cs => exact hstay
  | atEnd => exact hstay
  | locate => exact hstay
  | take n =>
    have hn : ¬ n < 0 := Int.not_lt.mpr ha
    rw [perform, Cursor.take, if_neg hn]
    split
    · exact hdrop n.toNat
    · exact hstay
  | takeWhile set => exact ⟨_, _, List.takeWhile_append_dropWhile, rfl⟩
  | takeUntil stop => exact hdrop _
  | skipGap => exact ⟨_, _, splitGap_append false c.rest, rfl⟩
  | nextToken =>
    refine ⟨_, _, ?_, Reading.move_move c _ _ _ _⟩
    rw [List.append_assoc, scan_append]
    exact splitGap_append false c.rest
  | readSymbol =>
    rw [perform, readSymbol?]
    cases symbolAt? c.rest with
    | none => exact hstay
    | some s => exact hdrop s.chars.length
  | readNumber => exact ⟨_, _, splits_scanNumber c.rest, rfl⟩
  | readString => exact ⟨_, _, splits_scanString c.rest, rfl⟩
  | readChar => exact ⟨_, _, splits_scanChar c.rest, rfl⟩

namespace TextStream

open Cursor (Command Answer)

variable {s : TextStream} {a : Command}

/-! ## Streams behind runs of characters -/

theorem eq_of_location {s t : TextStream} (hsource : s.source = t.source)
    (h : s.location = t.location) : s = t := by
  obtain ⟨source, offset, line, column⟩ := s
  obtain ⟨source', offset', line', column'⟩ := t
  obtain ⟨rfl, rfl, hoffset⟩ := Position.mk.inj h
  obtain rfl : source = source' := hsource
  obtain rfl : offset = offset' := Int.ofNat.inj hoffset
  rfl

theorem slice_self (cs : List Char) (i : Nat) : slice cs i i = [] := by
  rw [slice, Nat.sub_self, List.take_zero]

theorem behind_nil (s : TextStream) : s.behind [] = s :=
  eq_of_location (source_behind s []) (location_behind s [])

theorem behind_behind (s : TextStream) (us vs : List Char) :
    (s.behind us).behind vs = s.behind (us ++ vs) := by
  refine eq_of_location ?_ ?_
  · rw [source_behind, source_behind, source_behind]
  · rw [location_behind, location_behind, location_behind, Position.after_append]

/-- The position of the stream is that of the text in front of it. -/
def Exact (s : TextStream) : Prop :=
  s.location = Position.start.after (s.source.take s.offset)

theorem exact_ofText (source : String) : (ofText source).Exact := rfl

theorem Exact.marks (h : s.Exact) : s.location.Marks s.source := by
  have hmarks := Position.marks_after (s.source.take s.offset) (s.source.drop s.offset)
  rw [List.take_append_drop] at hmarks
  rw [h]
  exact hmarks

theorem Exact.behind (h : s.Exact) {j : Nat} (hij : s.offset ≤ j) (hj : j ≤ s.source.length) :
    (s.behind (slice s.source s.offset j)).Exact := by
  have hoffset : s.offset + (slice s.source s.offset j).length = j := by
    rw [length_slice hij hj]
    omega
  have htake : s.source.take j = s.source.take s.offset ++ slice s.source s.offset j := by
    have hslice := slice_slice (Nat.zero_le s.offset) hij s.source
    rw [slice, slice, slice, List.drop_zero, Nat.sub_zero, Nat.sub_zero] at hslice
    exact hslice.symm
  unfold Exact
  rw [location_behind, source_behind, offset_behind, hoffset, htake, Position.after_append, ← h]

/-! ## One command -/

/-- A command moves the stream over the characters up to the offset that it leaves. -/
theorem perform_behind (ha : a.IsForward) (hs : s.offset ≤ s.source.length) :
    (s.perform a).2 = s.behind (slice s.source s.offset (s.perform a).2.offset) := by
  obtain ⟨leads, hperform⟩ := perform_toCursor ha hs
  obtain ⟨taken, rest, hsplit, hmove⟩ := s.toCursor.perform_moves ha
  rw [hperform] at hmove
  have hlocation : (s.perform a).2.location = s.location.after taken :=
    congrArg Cursor.position hmove
  have hoffset : (s.perform a).2.offset = s.offset + taken.length := by
    have hint := congrArg Position.offset hlocation
    rw [Position.offset_after] at hint
    exact Int.ofNat.inj hint
  have hslice : slice s.source s.offset (s.perform a).2.offset = taken := by
    rw [slice, hoffset, Nat.add_sub_cancel_left]
    show s.toCursor.rest.take taken.length = taken
    rw [← hsplit, List.take_left]
  rw [hslice]
  refine eq_of_location ?_ ?_
  · rw [leads.source_eq, source_behind]
  · rw [hlocation, location_behind]

theorem perform_take (s : TextStream) (n : Nat) :
    s.perform (.take n) = if s.source.length < s.offset + n then
      (.error (.located s.location (.cutShort n)), s)
    else (.ok (.chars (slice s.source s.offset (s.offset + n))),
      s.behind (slice s.source s.offset (s.offset + n))) := by
  show Lexing.ended (EStateM.bind (Lexing.take n) _ s) = _
  unfold EStateM.bind Lexing.take
  by_cases h : s.source.length < s.offset + n
  · rw [if_pos h, if_pos h]
    rfl
  · rw [if_neg h, if_neg h]
    rfl

theorem perform_take_to {j : Nat} (hij : s.offset ≤ j) (hj : j ≤ s.source.length) :
    s.perform (.take ((j - s.offset : Nat) : Int)) =
      (.ok (.chars (slice s.source s.offset j)), s.behind (slice s.source s.offset j)) ∧
    (s.behind (slice s.source s.offset j)).offset = j := by
  have hsum : s.offset + (j - s.offset) = j := Nat.add_sub_cancel' hij
  constructor
  · rw [perform_take, hsum, if_neg (Nat.not_lt.mpr hj)]
  · rw [offset_behind, length_slice hij hj, hsum]

theorem endOfRun_spec (p : Char → Bool) {cs : List Char} {i : Nat} (h : i ≤ cs.length) :
    i ≤ endOfRun p cs i ∧ endOfRun p cs i ≤ cs.length ∧
      (∀ c ∈ slice cs i (endOfRun p cs i), p c = true) ∧
      ∀ c, cs[endOfRun p cs i]? = some c → p c = false := by
  have hend := endOfRun_eq p h
  have hsplit : (cs.drop i).takeWhile p ++ (cs.drop i).dropWhile p = cs.drop i :=
    List.takeWhile_append_dropWhile
  have hall : ∀ c ∈ (cs.drop i).takeWhile p, p c = true := fun c hc => List.mem_takeWhile_imp hc
  have hnext := Cursor.Reading.ends_dropWhile p (cs.drop i)
  generalize (cs.drop i).takeWhile p = run at hend hsplit hall
  generalize (cs.drop i).dropWhile p = rest at hsplit hnext
  have hlength := congrArg List.length hsplit
  rw [List.length_append, List.length_drop] at hlength
  refine ⟨by omega, by omega, ?_, ?_⟩
  · rwa [slice, hend, Nat.add_sub_cancel_left, ← hsplit, List.take_left]
  · intro c hc
    rw [hend, ← List.getElem?_drop, ← hsplit, List.getElem?_append_right (Nat.le_refl _),
      Nat.sub_self] at hc
    cases rest with
    | nil => cases hc
    | cons d ds =>
      cases hc
      exact hnext _ ds rfl

/-- The index that is found is the first at which the text occurs, if it occurs at all. -/
theorem find?_spec (stop : List Char) {cs : List Char} {i : Nat} (h : i ≤ cs.length) :
    i ≤ (find? stop cs i).getD cs.length ∧ (find? stop cs i).getD cs.length ≤ cs.length ∧
      (∀ j, i ≤ j → j < (find? stop cs i).getD cs.length → ¬ stop <+: cs.drop j) ∧
      (stop <+: cs.drop ((find? stop cs i).getD cs.length) ∨
        (find? stop cs i).getD cs.length = cs.length) := by
  fun_induction find? stop cs i with
  | case1 i hp =>
    refine ⟨Nat.le_refl i, h, fun j hij hj => ?_, Or.inl (List.isPrefixOf_iff_prefix.mp hp)⟩
    exact absurd hj (Nat.not_lt.mpr hij)
  | case2 i hp hi ih =>
    obtain ⟨hle, hlength, hno, hstop⟩ := ih hi
    refine ⟨by omega, hlength, fun j hij hj => ?_, hstop⟩
    by_cases hji : j = i
    · rw [hji]
      exact fun hpre => hp (List.isPrefixOf_iff_prefix.mpr hpre)
    · exact hno j (by omega) hj
  | case3 i hp hi =>
    refine ⟨h, Nat.le_refl _, fun j hij hj => ?_, Or.inr rfl⟩
    dsimp only [Option.getD_none] at hj
    omega

/-- What a command may do to the stream `s`: the outcome and the stream that is left. -/
structure Accounted (s : TextStream) (a : Command) (o : Except Error Answer × TextStream) :
    Prop where
  source_eq : o.2.source = s.source
  /-- The stream never goes back. -/
  offset_le : s.offset ≤ o.2.offset
  le_length : o.2.offset ≤ s.source.length
  /-- It has moved as over one run of characters. -/
  behind_eq : o.2 = s.behind (slice s.source s.offset o.2.offset)
  /-- A look changes nothing. -/
  looks : a.looks = true → o.2 = s
  /-- As many characters as asked for are taken, or the stream stays as it is. -/
  take : ∀ n : Nat, a = .take n →
    o.1 = .ok (.chars (slice s.source s.offset o.2.offset)) ∧ o.2.offset = s.offset + n ∨
      o.1 = .error (.located s.location (.cutShort n)) ∧ o.2 = s ∧
        s.source.length < s.offset + n
  /-- The characters of a set are taken up to one that is not in it. -/
  takeWhile : ∀ set, a = .takeWhile set →
    o.1 = .ok (.chars (slice s.source s.offset o.2.offset)) ∧
      (∀ c ∈ slice s.source s.offset o.2.offset, c ∈ set) ∧
      ∀ c, s.source[o.2.offset]? = some c → c ∉ set
  /-- All is taken up to the first occurrence of a text, or to the end. -/
  takeUntil : ∀ stop, a = .takeUntil stop →
    o.1 = .ok (.chars (slice s.source s.offset o.2.offset)) ∧
      (∀ i, s.offset ≤ i → i < o.2.offset → ¬ stop <+: s.source.drop i) ∧
      (stop <+: s.source.drop o.2.offset ∨ o.2.offset = s.source.length)

theorem perform_accounted (ha : a.IsForward) (hs : s.offset ≤ s.source.length) :
    Accounted s a (s.perform a) := by
  have hleads := (perform_toCursor ha hs).1
  have hlength : (s.perform a).2.offset ≤ s.source.length := by
    rw [← hleads.source_eq]
    exact hleads.le_length
  refine ⟨hleads.source_eq, hleads.offset_le, hlength, perform_behind ha hs, ?_, ?_, ?_, ?_⟩
  · intro h
    cases a <;> first | rfl | cases h
  · rintro n rfl
    rw [perform_take]
    split
    · next hlt => exact Or.inr ⟨rfl, rfl, hlt⟩
    · next hle =>
      have hoffset : (s.behind (slice s.source s.offset (s.offset + n))).offset = s.offset + n := by
        rw [offset_behind, length_slice (Nat.le_add_right _ _) (Nat.not_lt.mp hle),
          Nat.add_sub_cancel_left]
      exact Or.inl ⟨by rw [hoffset], hoffset⟩
  · rintro set rfl
    obtain ⟨hle, hlength, hall, hnext⟩ := endOfRun_spec set.contains hs
    obtain ⟨htake, hoffset⟩ := perform_take_to hle hlength
    have hperform : s.perform (.takeWhile set) = _ := htake
    rw [hperform]
    dsimp only
    rw [hoffset]
    refine ⟨rfl, fun c hc => List.contains_iff_mem.mp (hall c hc), fun c hc hm => ?_⟩
    have hfalse := hnext c hc
    rw [List.contains_iff_mem.mpr hm] at hfalse
    cases hfalse
  · rintro stop rfl
    obtain ⟨hle, hlength, hno, hstop⟩ := find?_spec stop hs
    obtain ⟨htake, hoffset⟩ := perform_take_to hle hlength
    have hperform : s.perform (.takeUntil stop) = _ := htake
    rw [hperform]
    dsimp only
    rw [hoffset]
    exact ⟨rfl, hno, hstop⟩

/-! ## Commands in turn -/

/-- The characters that a command has answered with, none if it has failed. -/
def textOf : Except Error Answer → List Char
  | .ok (.chars cs) => cs
  | _ => []

/-- The characters that commands have answered with, in turn. -/
def texts (s : TextStream) (as : List Command) : List Char :=
  ((s.performAll as).map fun o => textOf o.1).flatten

theorem Accounted.text {o : Except Error Answer × TextStream} (h : Accounted s a o)
    (hforward : a.IsForward) (htakes : a.takes = true) :
    textOf o.1 = slice s.source s.offset o.2.offset := by
  cases a with
  | take n =>
    obtain ⟨m, rfl⟩ := Int.eq_ofNat_of_zero_le hforward
    rcases h.take m rfl with ⟨hok, -⟩ | ⟨herror, hstay, -⟩
    · rw [hok]
      rfl
    · rw [herror, hstay, slice_self]
      rfl
  | takeWhile set =>
    rw [(h.takeWhile set rfl).1]
    rfl
  | takeUntil stop =>
    rw [(h.takeUntil stop rfl).1]
    rfl
  | _ => cases htakes

/-- Commands in turn leave a stream in the same text, behind where it was. -/
theorem through_leads {as : List Command} (has : ∀ a ∈ as, a.IsForward)
    (hs : s.offset ≤ s.source.length) : s.Leads (s.through as) := by
  induction as generalizing s with
  | nil => exact .refl hs
  | cons a as ih =>
    obtain ⟨ha, has⟩ := List.forall_mem_cons.mp has
    have hleads := (perform_toCursor ha hs).1
    exact hleads.trans (ih has hleads.le_length)

/-- Commands in turn move the stream as over one run of characters. -/
theorem through_behind {as : List Command} (has : ∀ a ∈ as, a.IsForward)
    (hs : s.offset ≤ s.source.length) :
    s.through as = s.behind (slice s.source s.offset (s.through as).offset) := by
  induction as generalizing s with
  | nil =>
    show s = s.behind (slice s.source s.offset s.offset)
    rw [slice_self, behind_nil]
  | cons a as ih =>
    obtain ⟨ha, has⟩ := List.forall_mem_cons.mp has
    have hleads := (perform_toCursor ha hs).1
    have hleads' := through_leads has hleads.le_length
    have hlater := ih has hleads.le_length
    rw [hleads.source_eq] at hlater
    show (s.perform a).2.through as =
      s.behind (slice s.source s.offset ((s.perform a).2.through as).offset)
    rw [← slice_slice hleads.offset_le hleads'.offset_le, ← behind_behind, ← perform_behind ha hs]
    exact hlater

theorem through_exact {as : List Command} (has : ∀ a ∈ as, a.IsForward) (hexact : s.Exact)
    (hs : s.offset ≤ s.source.length) : (s.through as).Exact := by
  have hleads := through_leads has hs
  rw [through_behind has hs]
  exact hexact.behind hleads.offset_le (hleads.source_eq ▸ hleads.le_length)

/-- What is taken in turn stands in turn in the text. -/
theorem texts_eq {as : List Command} (has : ∀ a ∈ as, a.takes = true ∧ a.IsForward)
    (hs : s.offset ≤ s.source.length) :
    texts s as = slice s.source s.offset (s.through as).offset := by
  induction as generalizing s with
  | nil => exact (slice_self s.source s.offset).symm
  | cons a as ih =>
    obtain ⟨⟨htakes, ha⟩, has⟩ := List.forall_mem_cons.mp has
    have hleads := (perform_toCursor ha hs).1
    have hleads' := through_leads (fun b hb => (has b hb).2) hleads.le_length
    have hlater := ih has hleads.le_length
    rw [hleads.source_eq] at hlater
    show textOf (s.perform a).1 ++ texts (s.perform a).2 as =
      slice s.source s.offset ((s.perform a).2.through as).offset
    rw [(perform_accounted ha hs).text ha htakes, hlater]
    exact slice_slice hleads.offset_le hleads'.offset_le s.source

theorem performAll_concat {as : List Command} (has : ∀ a ∈ as, a.IsForward) (ha : a.IsForward)
    (hs : s.offset ≤ s.source.length) :
    s.toCursor.performAll (as ++ [a]) = s.toCursor.performAll as ++
      [(((s.through as).perform a).1, ((s.through as).perform a).2.toCursor)] := by
  induction as generalizing s with
  | nil =>
    have hperform := (perform_toCursor ha hs).2
    show [s.toCursor.perform a] = [_]
    rw [hperform]
    rfl
  | cons b as ih =>
    obtain ⟨hb, has⟩ := List.forall_mem_cons.mp has
    obtain ⟨hleads, hperform⟩ := perform_toCursor hb hs
    have hlater := ih has hleads.le_length
    rw [List.cons_append, Cursor.performAll, Cursor.performAll, hperform]
    exact congrArg (_ :: ·) hlater

/-! ## Streams from the front of a text -/

/-- A stream at the front of a text is given commands of any kind, each from where the one before
has left it, whether that failed or not.  It stands at the line and the column of its next
character, and the commands that follow do to it what `Accounted` says.  Its cursor goes through
the same places with the same answers.  A run of characters that is taken in parts is answered in
these parts, and leaves the stream as one take of the whole run does. -/
theorem stream_positions (source : String) {as : List Command} (has : ∀ a ∈ as, a.IsForward) :
    let s := (ofText source).through as
    s.source = source.toList ∧ s.offset ≤ source.toList.length ∧
      s.location.Marks source.toList ∧
      (∀ a : Command, a.IsForward → Accounted s a (s.perform a) ∧
        (Cursor.ofText source).performAll (as ++ [a]) =
          (Cursor.ofText source).performAll as ++ [((s.perform a).1, (s.perform a).2.toCursor)]) ∧
      ∀ bs : List Command, (∀ b ∈ bs, b.takes = true ∧ b.IsForward) →
        texts s bs = slice s.source s.offset (s.through bs).offset ∧
        s.perform (.take ((texts s bs).length : Nat)) = (.ok (.chars (texts s bs)), s.through bs) := by
  intro s
  have hstart : (ofText source).offset ≤ (ofText source).source.length := Nat.zero_le _
  have hleads : (ofText source).Leads s := through_leads has hstart
  have hexact : s.Exact := through_exact has (exact_ofText source) hstart
  have hsource : s.source = source.toList := hleads.source_eq
  refine ⟨hsource, hsource ▸ hleads.le_length, hsource ▸ hexact.marks, fun a ha => ⟨?_, ?_⟩,
    fun bs hbs => ⟨?_, ?_⟩⟩
  · exact perform_accounted ha hleads.le_length
  · exact performAll_concat has ha hstart
  · exact texts_eq hbs hleads.le_length
  · have hforward : ∀ b ∈ bs, b.IsForward := fun b hb => (hbs b hb).2
    have hleads' := through_leads hforward hleads.le_length
    have hle : (s.through bs).offset ≤ s.source.length := hleads'.source_eq ▸ hleads'.le_length
    have htake := (perform_take_to hleads'.offset_le hle).1
    rw [texts_eq hbs hleads.le_length, length_slice hleads'.offset_le hle, htake,
      ← through_behind hforward hleads.le_length]

/-- A number, a newline and a quoted text that is broken off: its reader has failed at the end of
the text, two lines further down.  No character is left to be taken there. -/
theorem stream_positions_broken_off :
    let as : List Command := [.readNumber, .takeWhile ['\n'], .readString]
    let s := (ofText "1\n\"b\nc").through as
    (∀ a ∈ as, a.IsForward) ∧ s.location = ⟨3, 2, 6⟩ ∧
      s.perform (.take 1) = (.error (.located ⟨3, 2, 6⟩ (.cutShort 1)), s) := by
  intro as s
  have has : ∀ a ∈ as, a.IsForward :=
    List.forall_mem_cons.mpr ⟨trivial, List.forall_mem_cons.mpr ⟨trivial,
      List.forall_mem_singleton.mpr trivial⟩⟩
  obtain ⟨-, -, -, hsteps, -⟩ := stream_positions "1\n\"b\nc" has
  have hone : (Command.take 1).IsForward := Int.zero_le_ofNat 1
  obtain ⟨haccount, hcursor⟩ := hsteps (.take 1) hone
  have hlast := congrArg List.getLast? hcursor
  rw [List.getLast?_append_cons, List.getLast?_singleton] at hlast
  have hreport : ((s.perform (.take 1)).1, (s.perform (.take 1)).2.toCursor) =
      (.error (.located ⟨3, 2, 6⟩ (.cutShort 1)),
        ⟨['c', '\n', 'b', '"', '\n', '1'], [], ⟨3, 2, 6⟩⟩) :=
    (Option.some.inj hlast).symm
  obtain ⟨houtcome, hleft⟩ := Prod.mk.inj hreport
  rcases haccount.take 1 rfl with ⟨hok, -⟩ | ⟨-, hstay, -⟩
  · have hboth := hok.symm.trans houtcome
    cases hboth
  · rw [hstay] at hleft
    exact ⟨has, congrArg Cursor.position hleft, Prod.ext houtcome hstay⟩

end TextStream

end ScriptReader
