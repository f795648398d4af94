import ScriptReader.Cursor
import ScriptReader.Proofs.MaximalMunch

/-!
# Lexemes taken from a cursor

`scan` cuts a lexeme off the front of a text.  A cursor can only look at some characters and take
some number of them, and it is an error if more are asked for than are left.  This file is about
readers that find out by looking how many characters to take, and then take them.

Each look comes before the take that it allows, so that none of them asks for too much, and a
number is only read where a digit stands.  The readers therefore do to a cursor what `scan` does,
and they go through the tokens of a script as `tokenize` does.

Main statements:

* `Reading.token_eq`: a token, with the gap in front of it;
* `Reading.tokens_eq`: the tokens of a script.
-/

namespace ScriptReader.Cursor

/-- What is done with a cursor in order to answer an `α`. -/
abbrev Reading (α : Type) : Type :=
  EStateM Error Cursor α

namespace Reading

variable {α : Type}

/-! ## Readers -/

/-- The character some places ahead. -/
def look (n : Int) : Reading (Option Char) := fun c => .ok (c.peek? n) c

/-- Whether a text is ahead. -/
def isAhead (cs : List Char) : Reading Bool := fun c => .ok (c.isAt cs) c

/-- Whether no character is ahead. -/
def isOver : Reading Bool := fun c => .ok c.atEnd c

/-- The position of the next character. -/
def place : Reading Position := fun c => .ok c.position c

/-- Something is wrong at a position. -/
def fail (p : Position) (f : Fault) : Reading α := fun c => .error (.located p f) c

/-- Takes some characters.  It is an error if fewer are left. -/
def take (n : Int) : Reading (List Char) := fun c =>
  match c.take n with
  | (.ok cs, c') => .ok cs c'
  | (.error e, c') => .error e c'

/-- Counts the characters ahead that satisfy `p`, and takes them. -/
def takeWhile (p : Char → Bool) : Reading (List Char) := fun c =>
  take (c.rest.takeWhile p).length c

/-- Counts the characters in front of the next `stop`, and takes them. -/
def takeUntil (stop : List Char) : Reading (List Char) := fun c =>
  take (lengthBefore stop c.rest) c

/-- The error of a loop that has used up its rounds. -/
def noRounds : Fault :=
  .custom "no rounds are left"

/-- Skips blanks and comments in turn, in so many rounds at most. -/
def skipGapWithin : (rounds : Nat) → Reading Unit
  | 0 => fail .start noRounds
  | rounds + 1 => do
    let _ ← takeWhile isBlank
    if ← isAhead ['/', '/'] then
      let _ ← takeUntil ['\n']
      skipGapWithin rounds
    else return ()

/-- Skips the gap ahead. -/
def skipGap : Reading Unit := fun c => skipGapWithin (c.rest.length + 1) c

/-- What some characters that were taken say. -/
def decoded (p : Position) (o : Except Fault Lexeme) : Reading Token :=
  match o with
  | .ok l => return l.tokenAt p
  | .error f => fail p f

/-- Takes the minus sign, if there is one. -/
def sign : Reading (List Char) := do
  if (← look 0) == some '-' then take 1 else return []

/-- Reads the number that begins at `p`, behind its sign. -/
def numberBehind (p : Position) (sign : List Char) : Reading Token := do
  let whole ← takeWhile Char.isDigit
  if sign.isEmpty && (← look 0) == some '.' && (← look 1).any Char.isDigit then
    let _ ← take 1
    let part ← takeWhile Char.isDigit
    decoded p (decimal whole part)
  else decoded p (integer (!sign.isEmpty) whole)

/-- Reads a number that begins at `p`. -/
def number (p : Position) : Reading Token := do
  numberBehind p (← sign)

/-- Takes the quote behind a text, which says the text if there is one. -/
def endQuote (p : Position) (text : List Char) : Reading Token := do
  if ← isOver then fail p (.unrecognized "\"")
  else
    let _ ← take 1
    decoded p (.ok ⟨.string (String.ofList text), String.ofList ('"' :: (text ++ ['"']))⟩)

/-- Reads a quoted text that begins at `p`. -/
def quoted (p : Position) : Reading Token := do
  let _ ← take 1
  endQuote p (← takeUntil ['"'])

/-- Reads a character between apostrophes that begins at `p`. -/
def char (p : Position) : Reading Token := do
  match ← look 1, ← look 2 with
  | some c, some '\'' =>
    if c = '\n' then fail p (.unrecognized "'")
    else
      let text ← take 3
      decoded p (.ok ⟨.char (String.singleton c), String.ofList text⟩)
  | _, _ => fail p (.unrecognized "'")

/-- Reads the first of some symbols that is ahead, if one is. -/
def symbol (p : Position) : List Symbol → Reading (Option Token)
  | [] => return none
  | s :: ss => do
    if ← isAhead s.chars then
      let _ ← take s.chars.length
      return some ((⟨.symbol s s.text, s.text⟩ : Lexeme).tokenAt p)
    else symbol p ss

/-- Reads the lexeme ahead, which begins with `c`, as a token at `p`. -/
def lexeme (p : Position) (c : Char) : Reading Token := do
  if isIdentStart c then
    let word ← takeWhile isIdentChar
    decoded p (.ok ⟨wordContent (String.ofList word), String.ofList word⟩)
  else if c.isDigit || c == '-' && (← look 1).any Char.isDigit then number p
  else if c = '"' then quoted p
  else if c = '\'' then char p
  else match ← symbol p Symbol.longestFirst with
    | some t => return t
    | none => fail p (.unrecognized (String.singleton c))

/-- Skips a gap and reads the token behind it. -/
def token : Reading Token := do
  skipGap
  let p ← place
  match ← look 0 with
  | none => return .endAt p
  | some c => lexeme p c

/-- Reads tokens up to the end mark, so many at most. -/
def tokensWithin : (count : Nat) → Reading (List Token)
  | 0 => fail .start noRounds
  | count + 1 => do
    let t ← token
    if t.isEnd then return [t] else return t :: (← tokensWithin count)

/-- What a run answers, without the cursor that it leaves. -/
def outcome : EStateM.Result Error Cursor α → Except Error α
  | .ok a _ => .ok a
  | .error e _ => .error e

/-- The tokens of a script. -/
def tokens (source : String) : Except Error (List Token) :=
  outcome (tokensWithin (source.length + 1) (ofText source))

/-! ## Taking -/

/-- What a run of a reader comes to if a scan has done the same. -/
def scanned (c : Cursor) (p : Position) (s : Scan) : EStateM.Result Error Cursor Token :=
  match s.outcome with
  | .ok l => .ok (l.tokenAt p) (c.move s.taken s.rest)
  | .error f => .error (.located p f) (c.move s.taken s.rest)

theorem move_move (c : Cursor) (us vs rest rest' : List Char) :
    (c.move us rest).move vs rest' = c.move (us ++ vs) rest' := by
  simp only [move, List.reverse_append, List.append_assoc, Position.after_append]

theorem move_nil {c : Cursor} {rest : List Char} (h : c.rest = rest) : c.move [] rest = c := by
  subst h
  rfl

theorem bind_ok {β : Type} {r : Reading α} {f : α → Reading β} {c c' : Cursor} {a : α}
    (h : r c = .ok a c') : (r >>= f) c = f a c' := by
  show EStateM.bind r f c = _
  rw [EStateM.bind, h]

theorem bind_error {β : Type} {r : Reading α} {f : α → Reading β} {c c' : Cursor} {e : Error}
    (h : r c = .error e c') : (r >>= f) c = .error e c' := by
  show EStateM.bind r f c = _
  rw [EStateM.bind, h]

/-- As many characters are taken as there are in a text that is ahead. -/
theorem take_eq {c : Cursor} (us : List Char) {rest : List Char} (h : c.rest = us ++ rest) :
    take us.length c = .ok us (c.move us rest) := by
  have htake : c.rest.take us.length = us := by rw [h, List.take_left]
  have hdrop : c.rest.drop us.length = rest := by rw [h, List.drop_left]
  have hle : us.length ≤ c.rest.length := by
    rw [h, List.length_append]
    omega
  unfold take Cursor.take
  rw [if_neg (by omega), Int.toNat_natCast, if_pos hle, drop, htake, hdrop]

theorem takeWhile_eq (p : Char → Bool) (c : Cursor) :
    takeWhile p c =
      .ok (c.rest.takeWhile p) (c.move (c.rest.takeWhile p) (c.rest.dropWhile p)) :=
  take_eq _ List.takeWhile_append_dropWhile.symm

theorem lengthBefore_singleton (q : Char) (cs : List Char) :
    lengthBefore [q] cs = (cs.takeWhile (· != q)).length := by
  induction cs with
  | nil => rfl
  | cons c cs ih =>
    rw [lengthBefore]
    by_cases hc : q = c
    · subst hc
      simp
    · have hne : (c != q) = true := by simpa using Ne.symm hc
      rw [if_neg (by simpa using hc), ih, List.takeWhile_cons_of_pos (p := (· != q)) hne,
        List.length_cons]

theorem takeUntil_eq (q : Char) (c : Cursor) :
    takeUntil [q] c =
      .ok (c.rest.takeWhile (· != q)) (c.move (c.rest.takeWhile (· != q))
        (c.rest.dropWhile (· != q))) := by
  rw [takeUntil, lengthBefore_singleton]
  exact take_eq _ List.takeWhile_append_dropWhile.symm

/-- What stands behind the longest run of characters does not go on with it. -/
theorem ends_dropWhile (p : Char → Bool) (cs : List Char) : Ends p (cs.dropWhile p) := by
  induction cs with
  | nil => nofun
  | cons c cs ih =>
    cases hc : p c with
    | true => rwa [List.dropWhile_cons_of_pos hc]
    | false =>
      rw [List.dropWhile_cons_of_neg (by simp [hc])]
      rintro d more ⟨rfl⟩
      exact hc

theorem decoded_eq {c : Cursor} {p : Position} {taken rest : List Char} (o : Except Fault Lexeme) :
    decoded p o (c.move taken rest) = scanned c p ⟨taken, rest, o⟩ := by
  cases o <;> rfl

/-! ## The lexemes -/

theorem look_zero (c : Cursor) : look 0 c = .ok c.rest[0]? c := rfl

theorem look_one (c : Cursor) : look 1 c = .ok c.rest[1]? c := rfl

theorem look_two (c : Cursor) : look 2 c = .ok c.rest[2]? c := rfl

theorem number_negative {c : Cursor} {body : List Char} (h : c.rest = '-' :: body) (p : Position) :
    number p c = scanned c p (scanNumber c.rest) := by
  have htake : take 1 c = .ok ['-'] (c.move ['-'] body) := take_eq ['-'] h
  have hsign : sign c = .ok ['-'] (c.move ['-'] body) := by
    rw [sign, bind_ok (look_zero c), h]
    exact htake
  rw [number, bind_ok hsign, numberBehind, bind_ok (takeWhile_eq _ _), h, move_move]
  exact decoded_eq _

theorem scanNumber_unsigned {cs : List Char} (h : cs[0]? ≠ some '-') :
    scanNumber cs = scanUnsigned cs := by
  unfold scanNumber
  split
  · exact absurd rfl h
  · rfl

/-- A number without a sign, by the two characters behind its first digits. -/
theorem scanUnsigned_eq {cs whole rest : List Char} (hwhole : cs.takeWhile Char.isDigit = whole)
    (hrest : cs.dropWhile Char.isDigit = rest) :
    scanUnsigned cs = if rest[0]? == some '.' && rest[1]?.any Char.isDigit then
      ⟨whole ++ '.' :: rest.tail.takeWhile Char.isDigit, rest.tail.dropWhile Char.isDigit,
        decimal whole (rest.tail.takeWhile Char.isDigit)⟩
    else ⟨whole, rest, integer false whole⟩ := by
  unfold scanUnsigned
  rw [hwhole, hrest]
  split
  · next d more => rfl
  · next hno =>
    rw [if_neg]
    intro hpoint
    obtain ⟨hfirst, hsecond⟩ := Bool.and_eq_true_iff.mp hpoint
    rcases rest with _ | ⟨e, _ | ⟨d, more⟩⟩
    · cases hfirst
    · cases hsecond
    · obtain rfl : e = '.' := by simpa using hfirst
      exact hno d more rfl

theorem number_unsigned {c : Cursor} (h : c.rest[0]? ≠ some '-') (p : Position) :
    number p c = scanned c p (scanNumber c.rest) := by
  have hsign : sign c = .ok [] c := by
    rw [sign, bind_ok (look_zero c), if_neg (by simpa using h)]
    rfl
  rw [scanNumber_unsigned h, scanUnsigned_eq rfl rfl, number, bind_ok hsign, numberBehind,
    bind_ok (takeWhile_eq _ _), bind_ok (look_zero _), bind_ok (look_one _)]
  generalize c.rest.dropWhile Char.isDigit = rest
  generalize c.rest.takeWhile Char.isDigit = whole
  show (if rest[0]? == some '.' && rest[1]?.any Char.isDigit then _ else _ : Reading Token) _ = _
  split
  · next hpoint =>
    -- the point is taken, and the digits behind it
    obtain ⟨hfirst, -⟩ := Bool.and_eq_true_iff.mp hpoint
    obtain ⟨more, rfl⟩ : ∃ more, rest = '.' :: more := by
      cases rest with
      | nil => cases hfirst
      | cons e more => exact ⟨more, by simpa using hfirst⟩
    have htake : take 1 (c.move whole ('.' :: more)) =
        .ok ['.'] ((c.move whole ('.' :: more)).move ['.'] more) :=
      take_eq ['.'] rfl
    rw [bind_ok htake, move_move, bind_ok (takeWhile_eq _ _), move_move, List.append_assoc]
    exact decoded_eq _
  · exact decoded_eq _

theorem number_eq (p : Position) (c : Cursor) : number p c = scanned c p (scanNumber c.rest) := by
  cases h : c.rest with
  | nil => rw [← h]; exact number_unsigned (by rw [h]; nofun) p
  | cons d ds =>
    rw [← h]
    by_cases hd : d = '-'
    · subst hd
      exact number_negative h p
    · refine number_unsigned ?_ p
      rw [h]
      simpa using hd

/-- A text in quotes ends at the next quote, which is taken unless there is none.  Its first
character is taken, whichever it is. -/
theorem quoted_eq {c : Cursor} {d : Char} {body : List Char} (h : c.rest = d :: body)
    (p : Position) : quoted p c = scanned c p (scanString c.rest) := by
  have htake : take 1 c = .ok [d] (c.move [d] body) := take_eq [d] h
  rw [quoted, bind_ok htake, bind_ok (takeUntil_eq '"' _), move_move, h]
  show endQuote p (body.takeWhile (· != '"')) (c.move (d :: body.takeWhile (· != '"'))
    (body.dropWhile (· != '"'))) = _
  unfold scanString endQuote
  dsimp only
  generalize body.takeWhile (· != '"') = text
  cases hrest : body.dropWhile (· != '"') with
  | nil => rfl
  | cons q rest =>
    obtain rfl : q = '"' := by simpa using ends_dropWhile (· != '"') body q rest hrest
    have hover : isOver (c.move (d :: text) ('"' :: rest)) = .ok false _ := rfl
    have hclose : take 1 (c.move (d :: text) ('"' :: rest)) =
        .ok ['"'] ((c.move (d :: text) ('"' :: rest)).move ['"'] rest) :=
      take_eq ['"'] rfl
    rw [bind_ok hover, if_neg Bool.false_ne_true, bind_ok hclose, move_move]
    rfl

/-- Three characters are taken once the third one is known to be there. -/
theorem char_eq {c : Cursor} {a : Char} {body : List Char} (h : c.rest = a :: body)
    (p : Position) : char p c = scanned c p (scanChar c.rest) := by
  have hfail : fail p (.unrecognized "'") c =
      scanned c p ⟨[], a :: body, .error (.unrecognized "'")⟩ := by
    rw [scanned, move_nil h]
    rfl
  rw [char, bind_ok (look_one c), bind_ok (look_two c), h]
  rcases body with _ | ⟨d, _ | ⟨q, rest⟩⟩
  · exact hfail
  · exact hfail
  · by_cases hq : q = '\''
    · subst hq
      by_cases hd : d = '\n'
      · subst hd
        exact hfail
      · have htake : take 3 c = .ok [a, d, '\''] (c.move [a, d, '\''] rest) :=
          take_eq [a, d, '\''] h
        show (if d = '\n' then _ else _ : Reading Token) c =
          scanned c p (if d = '\n' then _ else _)
        rw [if_neg hd, if_neg hd, bind_ok htake]
        exact decoded_eq _
    · simp [scanChar, hq, hfail]

theorem symbol_eq (p : Position) (ss : List Symbol) (c : Cursor) :
    symbol p ss c = match ss.find? (·.chars.isPrefixOf c.rest) with
      | some s => .ok (some ((⟨.symbol s s.text, s.text⟩ : Lexeme).tokenAt p))
          (c.move s.chars (c.rest.drop s.chars.length))
      | none => .ok none c := by
  induction ss with
  | nil => rfl
  | cons s ss ih =>
    have hahead : isAhead s.chars c = .ok (s.chars.isPrefixOf c.rest) c := rfl
    rw [symbol, bind_ok hahead, List.find?_cons]
    cases hs : s.chars.isPrefixOf c.rest with
    | false => exact ih
    | true =>
      obtain ⟨rest, hrest⟩ := List.isPrefixOf_iff_prefix.mp hs
      have hdrop : c.rest.drop s.chars.length = rest := by rw [← hrest, List.drop_left]
      dsimp only
      rw [if_pos rfl, bind_ok (take_eq _ hrest.symm), hdrop]
      rfl

theorem beginsWithDigit_eq (cs : List Char) : beginsWithDigit cs = cs[0]?.any Char.isDigit := by
  cases cs <;> rfl

/-- The reader is chosen by the character ahead, and by the one behind it if that is a minus
sign. -/
theorem lexeme_eq {c : Cursor} {d : Char} {ds : List Char} (h : c.rest = d :: ds) (p : Position) :
    lexeme p d c = scanned c p (scan c.rest) := by
  rw [lexeme, h, scan_cons]
  by_cases hw : isIdentStart d = true
  · rw [if_pos hw, if_pos hw, bind_ok (takeWhile_eq _ _), h]
    exact decoded_eq _
  have hlook : look 1 c = .ok ds[0]? c := by rw [look_one, h]; rfl
  rw [if_neg hw, if_neg hw, bind_ok hlook, beginsWithDigit_eq]
  by_cases hd : (d.isDigit || d == '-' && ds[0]?.any Char.isDigit) = true
  · rw [if_pos hd, if_pos hd, ← h]
    exact number_eq p c
  rw [if_neg hd, if_neg hd]
  by_cases hq : d = '"'
  · subst hq
    rw [if_pos rfl, if_pos rfl, ← h]
    exact quoted_eq h p
  rw [if_neg hq, if_neg hq]
  by_cases ha : d = '\''
  · subst ha
    rw [if_pos rfl, if_pos rfl, ← h]
    exact char_eq h p
  rw [if_neg ha, if_neg ha]
  have hsymbol := symbol_eq p Symbol.longestFirst c
  rw [h] at hsymbol
  change symbol p Symbol.longestFirst c = match symbolAt? (d :: ds) with
    | some s => _
    | none => _ at hsymbol
  cases hs : symbolAt? (d :: ds) with
  | some s =>
    rw [hs] at hsymbol
    rw [bind_ok hsymbol]
    rfl
  | none =>
    rw [hs] at hsymbol
    rw [bind_ok hsymbol, scanned, move_nil h]
    rfl

/-! ## The tokens -/

/-- What is skipped in front of a text belongs to the gap there. -/
theorem skipGap_move {c : Cursor} {gap rest : List Char} (hg : Skips gap rest)
    (h : c.rest = gap ++ rest) : (c.move gap rest).skipGap = c.skipGap := by
  unfold Cursor.skipGap
  rw [move_move, h, hg.splitGap_eq]
  rfl

/-- There is no gap in front of a character that begins none. -/
theorem skipGap_eq_self {c : Cursor} (hb : Ends isBlank c.rest)
    (hc : c.isAt ['/', '/'] = false) : c.skipGap = c := by
  have hsplit : splitGap false c.rest = ([], c.rest) := by
    unfold isAt at hc
    cases hrest : c.rest with
    | nil => rfl
    | cons d ds =>
      refine splitGap_nil (hb d ds hrest) ?_
      rintro rfl more rfl
      rw [hrest] at hc
      cases hc
  unfold Cursor.skipGap
  rw [hsplit]
  exact move_nil rfl

theorem skips_blanks {bs rest : List Char} (h : ∀ b ∈ bs, isBlank b = true) : Skips bs rest := by
  induction bs with
  | nil => exact .nil
  | cons b bs ih =>
    obtain ⟨hb, hbs⟩ := List.forall_mem_cons.mp h
    exact .blank hb (ih hbs)

/-- Two slashes and what stands between them and the next newline are skipped. -/
theorem skips_comment (more : List Char) :
    Skips (('/' :: '/' :: more).takeWhile (· != '\n'))
      (('/' :: '/' :: more).dropWhile (· != '\n')) := by
  have hline : '\n' ∉ more.takeWhile (· != '\n') := by
    intro hm
    simpa using List.mem_takeWhile_imp hm
  have hends : Ends (· != '\n') ([] ++ more.dropWhile (· != '\n')) := ends_dropWhile _ _
  have hskips := Skips.comment hline hends .nil
  rwa [List.append_nil] at hskips

/-- The blanks and the comments that are skipped in turn are the gap.  Each round but the last
takes the two slashes at least, so there are enough of them. -/
theorem skipGapWithin_eq {rounds : Nat} {c : Cursor} (h : c.rest.length < rounds) :
    skipGapWithin rounds c = .ok () c.skipGap := by
  induction rounds generalizing c with
  | zero => exact absurd h (Nat.not_lt_zero _)
  | succ rounds ih =>
    have hsplit : c.rest.takeWhile isBlank ++ c.rest.dropWhile isBlank = c.rest :=
      List.takeWhile_append_dropWhile
    have hblanks : Skips (c.rest.takeWhile isBlank) (c.rest.dropWhile isBlank) :=
      skips_blanks fun b hb => List.mem_takeWhile_imp hb
    have hends := ends_dropWhile isBlank c.rest
    have hlength := congrArg List.length hsplit
    rw [List.length_append] at hlength
    rw [skipGapWithin, bind_ok (takeWhile_eq _ _), ← skipGap_move hblanks hsplit.symm]
    generalize c.rest.takeWhile isBlank = blanks at hlength
    generalize c.rest.dropWhile isBlank = rest at hends hlength
    have hahead : isAhead ['/', '/'] (c.move blanks rest) =
      .ok ((c.move blanks rest).isAt ['/', '/']) (c.move blanks rest) := rfl
    rw [bind_ok hahead]
    cases hc : (c.move blanks rest).isAt ['/', '/'] with
    | false =>
      rw [skipGap_eq_self hends hc]
      rfl
    | true =>
      obtain ⟨more, rfl⟩ : ∃ more, ['/', '/'] ++ more = rest :=
        List.isPrefixOf_iff_prefix.mp hc
      have hcomment : ((c.move blanks ('/' :: '/' :: more)).move _ _).skipGap = _ :=
        skipGap_move (skips_comment more) List.takeWhile_append_dropWhile.symm
      rw [if_pos rfl, bind_ok (takeUntil_eq _ _)]
      refine (ih ?_).trans (congrArg (EStateM.Result.ok ()) hcomment)
      have hle := List.length_dropWhile_le (· != '\n') more
      simp only [List.length_append, List.length_cons] at hlength
      show (more.dropWhile (· != '\n')).length < rounds
      omega

theorem skipGap_eq (c : Cursor) : skipGap c = .ok () c.skipGap :=
  skipGapWithin_eq (Nat.lt_succ_self _)

/-- What a run of a reader comes to if a cursor has answered the same. -/
def ofRead {α : Type} : Except Error α × Cursor → EStateM.Result Error Cursor α
  | (.ok a, c) => .ok a c
  | (.error e, c) => .error e c

theorem token_eq (c : Cursor) : token c = ofRead c.nextToken := by
  have hread : ofRead c.nextToken = scanned c.skipGap c.skipGap.position (scan c.skipGap.rest) := by
    unfold nextToken read Scan.tokenAt scanned
    cases (scan c.skipGap.rest).outcome <;> rfl
  have hplace : place c.skipGap = .ok c.skipGap.position c.skipGap := rfl
  rw [hread, token, bind_ok (skipGap_eq c), bind_ok hplace, bind_ok (look_zero _)]
  cases h : c.skipGap.rest with
  | nil =>
    have hend : c.skipGap.move [] [] = c.skipGap := move_nil h
    rw [scanned]
    show EStateM.Result.ok _ c.skipGap = .ok _ (c.skipGap.move [] [])
    rw [hend]
    rfl
  | cons d ds =>
    have hlexeme := lexeme_eq h c.skipGap.position
    rw [h] at hlexeme
    exact hlexeme

/-! ## Scripts -/

/-- What becomes of a stream of tokens that must be read to its end. -/
def streamed (s : TokenStream) : Except Error (List Token) :=
  match s.failure with
  | some e => .error e
  | none => .ok s.tokens

theorem outcome_map {β : Type} (g : α → β) (r : Reading α) (c : Cursor) :
    outcome ((do return g (← r) : Reading β) c) = (outcome (r c)).map g := by
  show outcome (EStateM.bind r _ c) = _
  unfold EStateM.bind
  cases r c <;> rfl

theorem streamed_cons (t : Token) (s : TokenStream) :
    streamed ⟨t :: s.tokens, s.failure⟩ = (streamed s).map (t :: ·) := by
  unfold streamed
  dsimp only
  cases s.failure <;> rfl

/-- A cursor behind the token that is read next. -/
def behindToken (c : Cursor) : Cursor :=
  ⟨(readToken c.position c.rest).taken.reverse ++
      ((readToken c.position c.rest).gap.reverse ++ c.past),
    (readToken c.position c.rest).rest,
    (readToken c.position c.rest).position.after (readToken c.position c.rest).taken⟩

theorem nextToken_eq (c : Cursor) :
    c.nextToken = ((readToken c.position c.rest).outcome, behindToken c) := rfl

/-- Each token takes a character at least, so as many tokens as characters are enough. -/
theorem tokensWithin_eq {count : Nat} {c : Cursor} (h : c.rest.length < count) :
    outcome (tokensWithin count c) = streamed (streamFrom c.position c.rest) := by
  induction count generalizing c with
  | zero => exact absurd h (Nat.not_lt_zero _)
  | succ count ih =>
    have htoken := token_eq c
    rw [nextToken_eq] at htoken
    rw [tokensWithin, streamFrom_eq]
    cases ho : (readToken c.position c.rest).outcome with
    | error e =>
      rw [ho] at htoken
      rw [bind_error htoken]
      rfl
    | ok t =>
      rw [ho] at htoken
      rw [bind_ok htoken]
      dsimp only
      cases hend : t.isEnd with
      | true => rfl
      | false =>
        have hlt := rest_readToken_lt ho hend
        have hlater : outcome (tokensWithin count (behindToken c)) = _ :=
          ih (c := behindToken c) (show (readToken c.position c.rest).rest.length < count by omega)
        rw [if_neg Bool.false_ne_true, if_neg Bool.false_ne_true, outcome_map, hlater]
        exact (streamed_cons t _).symm

theorem tokens_eq (source : String) : tokens source = tokenize source := by
  have hrounds : (ofText source).rest.length < source.length + 1 := by
    rw [← String.length_toList]
    exact Nat.lt_succ_self _
  exact tokensWithin_eq hrounds

end Reading

end ScriptReader.Cursor
