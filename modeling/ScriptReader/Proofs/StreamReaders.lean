import ScriptReader.Proofs.TextStreams

/-!
# Streams are cursors

A stream stands where a cursor does that has passed the characters in front of its offset.  What
the stream finds by the index of a character the cursor finds next to itself, and the line and
column that the stream counts run by run are those that the cursor counts character by character.

A reader on a stream simulates a reader on the cursor if both give the same answer or fail alike,
and end at the same place.  The relation is closed under sequence, so it passes from the looks and
the takes to the readers of lexemes, and to every command.

Main statements:

* `location_behind`: the position behind a run of characters;
* `perform_toCursor`: a command to a stream is the command to its cursor.
-/

namespace ScriptReader.TextStream

open Cursor.Reading (ofRead scanned)

/-! ## Positions -/

/-- The text behind the last newline begins its line. -/
theorem exists_last_newline {cs : List Char} (h : cs.count '\n' ≠ 0) :
    ∃ before line, cs = before ++ '\n' :: line ∧ '\n' ∉ line ∧
      lastNewline cs = before.length := by
  have hmem : '\n' ∈ cs.reverse := by
    rw [List.mem_reverse]
    exact List.count_pos_iff.mp (Nat.pos_of_ne_zero h)
  obtain ⟨line, before, hsplit, hline⟩ := List.eq_append_cons_of_mem hmem
  have hcs : cs = before.reverse ++ '\n' :: line.reverse := by
    rw [← List.reverse_reverse cs, hsplit]
    simp
  have hindex : cs.reverse.idxOf '\n' = line.length := by
    rw [hsplit, List.idxOf_append_of_notMem hline, List.idxOf_cons_self, Nat.add_zero]
  refine ⟨before.reverse, line.reverse, hcs, by rwa [List.mem_reverse], ?_⟩
  have hlength := congrArg List.length hcs
  simp only [List.length_append, List.length_cons, List.length_reverse] at hlength
  rw [lastNewline, hindex, List.length_reverse]
  omega

/-- Counting the newlines of a run and looking for the last one is counting along the run. -/
theorem location_behind (s : TextStream) (taken : List Char) :
    (s.behind taken).location = s.location.after taken := by
  have hoffset := Position.offset_after s.location taken
  have hline := Position.line_after s.location taken
  have hposition : ∀ p : Position, p.line = (s.location.after taken).line →
      p.column = (s.location.after taken).column → p.offset = (s.location.after taken).offset →
      p = s.location.after taken := by
    intro p hl hc ho
    cases p
    cases h : s.location.after taken
    rw [h] at hl hc ho
    dsimp only at hl hc ho
    rw [hl, hc, ho]
  unfold behind
  by_cases h : taken.count '\n' = 0
  · rw [if_pos h]
    have hnewline : '\n' ∉ taken := List.count_eq_zero.mp h
    refine hposition _ ?_ ?_ ?_
    · rw [hline, h]
      exact (Int.add_zero _).symm
    · rw [Position.column_after hnewline]
      rfl
    · rw [hoffset]
      rfl
  · rw [if_neg h]
    obtain ⟨before, line, hsplit, hnewline, hlast⟩ := exists_last_newline h
    refine hposition _ hline.symm ?_ ?_
    · have hcolumn : (s.location.after taken).column = 1 + line.length := by
        rw [hsplit, Position.after_append, Position.after_cons, Position.column_after hnewline]
        rfl
      have hlength := congrArg List.length hsplit
      rw [List.length_append, List.length_cons] at hlength
      show (taken.length : Int) - lastNewline taken = _
      rw [hcolumn, hlast]
      omega
    · rw [hoffset]
      rfl

theorem source_behind (s : TextStream) (taken : List Char) :
    (s.behind taken).source = s.source := by
  unfold behind
  split <;> rfl

theorem offset_behind (s : TextStream) (taken : List Char) :
    (s.behind taken).offset = s.offset + taken.length := by
  unfold behind
  split <;> rfl

/-! ## The loops that look for an end -/

theorem endOfRun_eq (p : Char → Bool) {cs : List Char} {i : Nat} (h : i ≤ cs.length) :
    endOfRun p cs i = i + ((cs.drop i).takeWhile p).length := by
  fun_induction endOfRun p cs i with
  | case1 i hi hp ih =>
    have hdrop : cs.drop i = cs.get ⟨i, hi⟩ :: cs.drop (i + 1) := List.drop_eq_getElem_cons hi
    rw [ih hi, hdrop, List.takeWhile_cons_of_pos hp, List.length_cons]
    omega
  | case2 i hi hp =>
    have hdrop : cs.drop i = cs.get ⟨i, hi⟩ :: cs.drop (i + 1) := List.drop_eq_getElem_cons hi
    rw [hdrop, List.takeWhile_cons_of_neg hp]
    rfl
  | case3 i hi =>
    rw [List.drop_eq_nil_of_le (Nat.le_of_not_lt hi)]
    rfl

theorem find?_eq (stop : List Char) {cs : List Char} {i : Nat} (h : i ≤ cs.length) :
    (find? stop cs i).getD cs.length = i + Cursor.lengthBefore stop (cs.drop i) := by
  fun_induction find? stop cs i with
  | case1 i hp =>
    cases hdrop : cs.drop i with
    | nil => rfl
    | cons d ds =>
      rw [hdrop] at hp
      rw [Cursor.lengthBefore, if_pos hp]
      rfl
  | case2 i hp hi ih =>
    have hdrop : cs.drop i = cs.get ⟨i, hi⟩ :: cs.drop (i + 1) := List.drop_eq_getElem_cons hi
    rw [hdrop] at hp
    rw [ih hi, hdrop, Cursor.lengthBefore, if_neg hp]
    omega
  | case3 i hp hi =>
    have hdrop : cs.drop i = [] := List.drop_eq_nil_of_le (Nat.le_of_not_lt hi)
    rw [hdrop]
    exact Nat.le_antisymm (Nat.le_of_not_lt hi) h

theorem lengthBefore_le (stop cs : List Char) : Cursor.lengthBefore stop cs ≤ cs.length := by
  induction cs with
  | nil => exact Nat.le_refl _
  | cons c cs ih =>
    rw [Cursor.lengthBefore, List.length_cons]
    split
    · exact Nat.zero_le _
    · exact Nat.succ_le_succ ih

/-! ## The cursor of a stream -/

/-- The cursor where the stream is. -/
def toCursor (s : TextStream) : Cursor :=
  ⟨(s.source.take s.offset).reverse, s.source.drop s.offset, s.location⟩

theorem peek?_toCursor {s : TextStream} (hs : s.offset ≤ s.source.length) (n : Int) :
    s.toCursor.peek? n = s.peek? n := by
  unfold Cursor.peek? peek? toCursor
  dsimp only
  by_cases hn : 0 ≤ n
  · rw [if_pos hn, if_pos (by omega), List.getElem?_drop]
    congr 1
    omega
  · rw [if_neg hn]
    by_cases hi : 0 ≤ (s.offset : Int) + n
    · have hlength : (s.source.take s.offset).length = s.offset := by
        rw [List.length_take, Nat.min_eq_left hs]
      rw [if_pos hi, List.getElem?_reverse (by omega), hlength, List.getElem?_take_of_lt (by omega)]
      congr 1
      omega
    · rw [if_neg hi, List.getElem?_eq_none_iff, List.length_reverse, List.length_take]
      omega

theorem length_slice {cs : List Char} {i j : Nat} (hij : i ≤ j) (hj : j ≤ cs.length) :
    (slice cs i j).length = j - i := by
  rw [slice, List.length_take, List.length_drop]
  omega

theorem toCursor_behind {s : TextStream} {n : Nat} (h : s.offset + n ≤ s.source.length) :
    (s.behind (slice s.source s.offset (s.offset + n))).toCursor =
      s.toCursor.move (slice s.source s.offset (s.offset + n)) (s.source.drop (s.offset + n)) := by
  have hlength := length_slice (Nat.le_add_right s.offset n) h
  unfold toCursor Cursor.move
  rw [source_behind, offset_behind, location_behind, hlength, Nat.add_sub_cancel_left,
    List.take_add, List.reverse_append, slice, Nat.add_sub_cancel_left]

/-! ## Readers that are simulated -/

/-- The stream `t` reads the same text as `s`, from the same character on or from one behind it. -/
structure Leads (s t : TextStream) : Prop where
  source_eq : t.source = s.source
  offset_le : s.offset ≤ t.offset
  le_length : t.offset ≤ t.source.length

theorem Leads.refl {s : TextStream} (h : s.offset ≤ s.source.length) : s.Leads s :=
  ⟨rfl, Nat.le_refl _, h⟩

theorem Leads.trans {s t u : TextStream} (h : s.Leads t) (h' : t.Leads u) : s.Leads u :=
  ⟨h'.source_eq.trans h.source_eq, Nat.le_trans h.offset_le h'.offset_le, h'.le_length⟩

namespace Lexing

variable {α β : Type}

/-- A run on the stream `s` and one on its cursor that give the same answer or fail alike, and
leave a stream and its cursor. -/
inductive Simulated (s : TextStream) :
    EStateM.Result Error TextStream α → EStateM.Result Error Cursor α → Prop
  | ok {a : α} {t : TextStream} (leads : s.Leads t) : Simulated s (.ok a t) (.ok a t.toCursor)
  | error {e : Error} {t : TextStream} (leads : s.Leads t) :
      Simulated s (.error e t) (.error e t.toCursor)

/-- What is done with a stream is what a reader does to its cursor. -/
def Simulates (w : Lexing α) (r : Cursor.Reading α) : Prop :=
  ∀ s : TextStream, s.offset ≤ s.source.length → Simulated s (w s) (r s.toCursor)

variable {w : Lexing α} {r : Cursor.Reading α}

theorem Simulates.bind {k : α → Lexing β} {k' : α → Cursor.Reading β} (hw : Simulates w r)
    (hk : ∀ a, Simulates (k a) (k' a)) : Simulates (w >>= k) (r >>= k') := by
  intro s hs
  have h := hw s hs
  show Simulated s (EStateM.bind w k s) (EStateM.bind r k' s.toCursor)
  unfold EStateM.bind
  generalize w s = o at h
  generalize r s.toCursor = o' at h
  cases h with
  | @ok a t leads =>
    have hnext := hk a t leads.le_length
    dsimp only
    generalize k a t = o at hnext
    generalize k' a t.toCursor = o' at hnext
    cases hnext with
    | ok leads' => exact .ok (leads.trans leads')
    | error leads' => exact .error (leads.trans leads')
  | error leads => exact .error leads

theorem Simulates.pure (a : α) : Simulates (pure a) (pure a) :=
  fun _ hs => .ok (.refl hs)

theorem Simulates.fail (p : Position) (f : Fault) :
    Simulates (fail p f : Lexing α) (Cursor.Reading.fail p f) :=
  fun _ hs => .error (.refl hs)

/-- An answer is made into another one. -/
theorem Simulates.map (hw : Simulates w r) (f : α → β) :
    Simulates (do return f (← w)) (do return f (← r)) :=
  hw.bind fun a => .pure (f a)

theorem Simulates.ite {p : Prop} [Decidable p] {w' : Lexing α} {r' : Cursor.Reading α}
    (h₁ : Simulates w r) (h₂ : Simulates w' r') :
    Simulates (if p then w else w') (if p then r else r') := by
  split
  · exact h₁
  · exact h₂

/-! ## Looks -/

theorem look_simulates (n : Int) : Simulates (look n) (Cursor.Reading.look n) := by
  intro s hs
  unfold Cursor.Reading.look
  rw [peek?_toCursor hs]
  exact .ok (.refl hs)

theorem isAhead_simulates (cs : List Char) :
    Simulates (isAhead cs) (Cursor.Reading.isAhead cs) :=
  fun _ hs => .ok (.refl hs)

theorem isOver_simulates : Simulates isOver Cursor.Reading.isOver := by
  intro s hs
  have hend : s.toCursor.atEnd = s.atEnd := by
    rw [Bool.eq_iff_iff]
    simp [Cursor.atEnd, atEnd, toCursor]
  unfold Cursor.Reading.isOver
  rw [hend]
  exact .ok (.refl hs)

theorem place_simulates : Simulates place Cursor.Reading.place :=
  fun _ hs => .ok (.refl hs)

/-! ## Takes -/

theorem take_simulates (n : Nat) : Simulates (take n) (Cursor.Reading.take n) := by
  intro s hs
  have hlength : s.toCursor.rest.length = s.source.length - s.offset := List.length_drop
  have hcount : ¬ (n : Int) < 0 := by omega
  unfold take Cursor.Reading.take Cursor.take
  rw [if_neg hcount, Int.toNat_natCast, hlength]
  by_cases h : s.source.length < s.offset + n
  · rw [if_pos h, if_neg (by omega)]
    exact .error (.refl hs)
  · have hle : s.offset + n ≤ s.source.length := Nat.le_of_not_lt h
    have htake : s.toCursor.rest.take n = slice s.source s.offset (s.offset + n) := by
      rw [slice, Nat.add_sub_cancel_left]
      rfl
    have hdrop : s.toCursor.rest.drop n = s.source.drop (s.offset + n) := List.drop_drop
    rw [if_neg h, if_pos (by omega), Cursor.drop, htake, hdrop, ← toCursor_behind hle]
    refine .ok ⟨source_behind _ _, ?_, ?_⟩
    · rw [offset_behind]
      exact Nat.le_add_right _ _
    · rw [source_behind, offset_behind, length_slice (Nat.le_add_right _ _) hle]
      omega

theorem takeWhile_simulates (p : Char → Bool) :
    Simulates (takeWhile p) (Cursor.Reading.takeWhile p) := by
  intro s hs
  have htake := take_simulates ((s.toCursor.rest.takeWhile p).length) s hs
  unfold takeWhile
  rw [endOfRun_eq p hs, Nat.add_sub_cancel_left]
  exact htake

theorem takeUntil_simulates (stop : List Char) :
    Simulates (takeUntil stop) (Cursor.Reading.takeUntil stop) := by
  intro s hs
  have htake := take_simulates (Cursor.lengthBefore stop s.toCursor.rest) s hs
  unfold takeUntil
  rw [find?_eq stop hs, Nat.add_sub_cancel_left]
  exact htake

/-! ## Lexemes -/

theorem skipGapWithin_simulates (rounds : Nat) :
    Simulates (skipGapWithin rounds) (Cursor.Reading.skipGapWithin rounds) := by
  induction rounds with
  | zero => exact .fail _ _
  | succ rounds ih =>
    refine (takeWhile_simulates _).bind fun _ => (isAhead_simulates _).bind fun _ => ?_
    exact .ite ((takeUntil_simulates _).bind fun _ => ih) (.pure ())

theorem skipGap_simulates : Simulates skipGap Cursor.Reading.skipGap := by
  intro s hs
  have hlength : s.toCursor.rest.length = s.source.length - s.offset := List.length_drop
  unfold skipGap Cursor.Reading.skipGap
  rw [hlength]
  exact skipGapWithin_simulates _ s hs

theorem decoded_simulates (p : Position) (o : Except Fault Lexeme) :
    Simulates (decoded p o) (Cursor.Reading.decoded p o) := by
  cases o with
  | ok l => exact .pure _
  | error f => exact .fail p f

theorem number_simulates (p : Position) : Simulates (number p) (Cursor.Reading.number p) := by
  have hsign : Simulates sign Cursor.Reading.sign :=
    (look_simulates 0).bind fun _ => .ite (take_simulates 1) (.pure [])
  refine hsign.bind fun text => (takeWhile_simulates _).bind fun whole => ?_
  refine (look_simulates 0).bind fun _ => (look_simulates 1).bind fun _ => .ite ?_ ?_
  · exact (take_simulates 1).bind fun _ => (takeWhile_simulates _).bind fun _ =>
      decoded_simulates p _
  · exact decoded_simulates p _

theorem quoted_simulates (p : Position) : Simulates (quoted p) (Cursor.Reading.quoted p) := by
  refine (take_simulates 1).bind fun _ => (takeUntil_simulates _).bind fun text => ?_
  refine isOver_simulates.bind fun _ => .ite (.fail p _) ?_
  exact (take_simulates 1).bind fun _ => decoded_simulates p _

theorem char_simulates (p : Position) : Simulates (char p) (Cursor.Reading.char p) := by
  refine (look_simulates 1).bind fun c => (look_simulates 2).bind fun q => ?_
  cases c with
  | none => exact .fail p _
  | some c =>
    dsimp only
    by_cases hq : q = some '\''
    · subst hq
      show Simulates _ (if c = '\n' then Cursor.Reading.fail p (.unrecognized "'") else _)
      by_cases hc : c = '\n'
      · rw [if_pos (Or.inl hc), if_pos hc]
        exact .fail p _
      · have hno : ¬ (c = '\n' ∨ some '\'' ≠ some '\'') := fun h => h.elim hc fun hne => hne rfl
        rw [if_neg hno, if_neg hc]
        exact (take_simulates 3).bind fun _ => decoded_simulates p _
    · rw [if_pos (Or.inr hq)]
      split
      · exact absurd rfl hq
      · exact .fail p _

theorem symbol_simulates (p : Position) (ss : List Symbol) :
    Simulates (symbol p ss) (Cursor.Reading.symbol p ss) := by
  induction ss with
  | nil => exact .pure none
  | cons s ss ih =>
    exact (isAhead_simulates _).bind fun _ => .ite ((take_simulates _).bind fun _ => .pure _) ih

theorem lexeme_simulates (p : Position) (c : Char) :
    Simulates (lexeme p c) (Cursor.Reading.lexeme p c) := by
  refine .ite ((takeWhile_simulates _).bind fun _ => decoded_simulates p _) ?_
  refine (look_simulates 1).bind fun _ => .ite (number_simulates p) ?_
  refine .ite (quoted_simulates p) (.ite (char_simulates p) ?_)
  refine (symbol_simulates p _).bind fun t => ?_
  cases t with
  | none => exact .fail p _
  | some t => exact .pure t

theorem token_simulates : Simulates token Cursor.Reading.token := by
  refine skipGap_simulates.bind fun _ => place_simulates.bind fun p => ?_
  refine (look_simulates 0).bind fun c => ?_
  cases c with
  | none => exact .pure _
  | some c => exact lexeme_simulates p c

/-! ## Commands -/

theorem map_ofRead {r : Cursor.Reading α} {c : Cursor} {o : Except Error α × Cursor}
    (h : r c = ofRead o) (f : α → β) :
    (do return f (← r) : Cursor.Reading β) c = ofRead (o.1.map f, o.2) := by
  show EStateM.bind r _ c = _
  unfold EStateM.bind
  rw [h]
  obtain ⟨outcome, c'⟩ := o
  cases outcome <;> rfl

theorem ofRead_read (c : Cursor) (f : List Char → Scan) :
    ofRead (c.read f) = scanned c c.position (f c.rest) := by
  unfold Cursor.read Scan.tokenAt scanned
  cases (f c.rest).outcome <;> rfl

theorem take_eq_ofRead (c : Cursor) (n : Int) : Cursor.Reading.take n c = ofRead (c.take n) := by
  unfold Cursor.Reading.take ofRead
  cases c.take n with
  | mk outcome c' => cases outcome <;> rfl

theorem takeUntil_eq_ofRead (c : Cursor) (stop : List Char) :
    Cursor.Reading.takeUntil stop c = ofRead (.ok (c.takeUntil stop).1, (c.takeUntil stop).2) := by
  have hle := lengthBefore_le stop c.rest
  have hcount : ¬ ((Cursor.lengthBefore stop c.rest : Nat) : Int) < 0 := by omega
  rw [Cursor.Reading.takeUntil, take_eq_ofRead, Cursor.take, if_neg hcount, Int.toNat_natCast,
    if_pos hle]
  rfl

/-- A text in quotes, where anything may stand in the place of the first quote. -/
theorem quoted_here (c : Cursor) :
    Cursor.Reading.quoted c.position c = ofRead (c.read scanString) := by
  rw [ofRead_read]
  cases h : c.rest with
  | nil =>
    have hend : c.move [] [] = c := Cursor.Reading.move_nil h
    have htake : Cursor.Reading.take 1 c = .error (.located c.position (.cutShort 1)) c := by
      unfold Cursor.Reading.take Cursor.take
      rw [h]
      rfl
    rw [Cursor.Reading.quoted, Cursor.Reading.bind_error htake, scanned]
    show EStateM.Result.error _ c = .error _ (c.move [] [])
    rw [hend]
  | cons d body =>
    rw [← h]
    exact Cursor.Reading.quoted_eq h c.position

/-- A character between apostrophes, where anything may stand in the place of the first one. -/
theorem char_here (c : Cursor) :
    Cursor.Reading.char c.position c = ofRead (c.read scanChar) := by
  rw [ofRead_read]
  cases h : c.rest with
  | nil =>
    have hend : c.move [] [] = c := Cursor.Reading.move_nil h
    have hlook : Cursor.Reading.look 1 c = .ok none c := by
      rw [Cursor.Reading.look_one, h]
      rfl
    have hlook' : Cursor.Reading.look 2 c = .ok none c := by
      rw [Cursor.Reading.look_two, h]
      rfl
    rw [Cursor.Reading.char, Cursor.Reading.bind_ok hlook, Cursor.Reading.bind_ok hlook', scanned]
    show EStateM.Result.error _ c = .error _ (c.move [] [])
    rw [hend]
  | cons d body =>
    rw [← h]
    exact Cursor.Reading.char_eq h c.position

/-- The symbol ahead, if there is one. -/
theorem symbol_here (c : Cursor) :
    Cursor.Reading.symbol c.position Symbol.longestFirst c =
      ofRead (.ok c.readSymbol?.1, c.readSymbol?.2) := by
  rw [Cursor.Reading.symbol_eq]
  unfold Cursor.readSymbol? symbolAt?
  cases hs : Symbol.longestFirst.find? (·.chars.isPrefixOf c.rest) with
  | none => rfl
  | some s =>
    have htake : c.rest.take s.chars.length = s.chars := by
      obtain ⟨rest, hrest⟩ := isPrefixOf_of_symbolAt? hs
      rw [← hrest, List.take_left]
    dsimp only
    rw [Cursor.drop, htake]
    rfl

theorem perform_readSymbol (c : Cursor) :
    c.perform .readSymbol = (.ok (symbolAnswer c.readSymbol?.1), c.readSymbol?.2) := by
  rw [Cursor.perform]
  cases c.readSymbol?.1 <;> rfl

/-- A reader whose answer is known is simulated with that answer. -/
theorem Simulates.answers {s : TextStream} {o : Except Error α × Cursor} (h : Simulates w r)
    (hs : s.offset ≤ s.source.length) (hr : r s.toCursor = ofRead o) (f : α → β) :
    Simulated s ((do return f (← w) : Lexing β) s) (ofRead (o.1.map f, o.2)) := by
  rw [← map_ofRead hr f]
  exact h.map f s hs

/-- A command does to a stream what it does to the cursor. -/
theorem command_simulated {a : Cursor.Command} (ha : a.IsForward) {s : TextStream}
    (hs : s.offset ≤ s.source.length) :
    Simulated s (command a s) (ofRead (s.toCursor.perform a)) := by
  cases a with
  | peek n => exact (look_simulates n).map (fun c => Cursor.Answer.chars c.toList) s hs
  | isAt cs => exact (isAhead_simulates cs).map Cursor.Answer.flag s hs
  | atEnd => exact isOver_simulates.map Cursor.Answer.flag s hs
  | locate => exact place_simulates.map Cursor.Answer.position s hs
  | take n =>
    obtain ⟨m, rfl⟩ := Int.eq_ofNat_of_zero_le ha
    exact (take_simulates m).answers hs (take_eq_ofRead _ m) Cursor.Answer.chars
  | takeWhile set =>
    have hread : Cursor.Reading.takeWhile set.contains s.toCursor =
        ofRead (.ok (s.toCursor.takeWhile set.contains).1, (s.toCursor.takeWhile set.contains).2) :=
      Cursor.Reading.takeWhile_eq _ _
    exact (takeWhile_simulates _).answers hs hread Cursor.Answer.chars
  | takeUntil stop =>
    exact (takeUntil_simulates stop).answers hs (takeUntil_eq_ofRead _ stop) Cursor.Answer.chars
  | skipGap =>
    have hread : Cursor.Reading.skipGap s.toCursor = ofRead (.ok (), s.toCursor.skipGap) :=
      Cursor.Reading.skipGap_eq _
    exact skipGap_simulates.answers hs hread fun _ => Cursor.Answer.nothing
  | nextToken =>
    exact token_simulates.answers hs (Cursor.Reading.token_eq _) Cursor.Answer.token
  | readSymbol =>
    rw [perform_readSymbol]
    exact (symbol_simulates s.location Symbol.longestFirst).answers hs (symbol_here s.toCursor)
      symbolAnswer
  | readNumber =>
    have hread : Cursor.Reading.number s.location s.toCursor = ofRead (s.toCursor.read scanNumber) :=
      (Cursor.Reading.number_eq _ _).trans (ofRead_read _ _).symm
    exact (number_simulates s.location).answers hs hread Cursor.Answer.token
  | readString =>
    exact (quoted_simulates s.location).answers hs (quoted_here _) Cursor.Answer.token
  | readChar => exact (char_simulates s.location).answers hs (char_here _) Cursor.Answer.token

end Lexing

/-- A command to a stream is the command to its cursor. -/
theorem perform_toCursor {a : Cursor.Command} (ha : a.IsForward) {s : TextStream}
    (hs : s.offset ≤ s.source.length) :
    s.Leads (s.perform a).2 ∧
      s.toCursor.perform a = ((s.perform a).1, (s.perform a).2.toCursor) := by
  have h := Lexing.command_simulated ha hs
  unfold perform
  generalize Lexing.command a s = o at h
  generalize ho : ofRead (s.toCursor.perform a) = o' at h
  generalize s.toCursor.perform a = r at ho
  obtain ⟨outcome, c⟩ := r
  cases h with
  | ok leads =>
    cases outcome <;> cases ho
    exact ⟨leads, rfl⟩
  | error leads =>
    cases outcome <;> cases ho
    exact ⟨leads, rfl⟩

end ScriptReader.TextStream
