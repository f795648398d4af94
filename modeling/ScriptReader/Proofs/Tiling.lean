import ScriptReader.Proofs.ErrorPlaces

/-!
# Tokens tile the script

The tokens of a script and the gaps between them are all of it.  Each token stands at the place
that it says, with its lexeme there; before it, up to the token before, stands a gap; and behind
the last one stands the last gap, up to the end of the script, or up to the error at which the
tokens end.

`Tiles` says this of some text from an offset on.  A reader moves along the text, so the induction
is on the longest matches, with the text in front of them as the offset.

Main statement: `tokens_tile`.
-/

namespace ScriptReader

/-! ## Parts of a text -/

/-- The characters of a text from the offset `i` up to the offset `j`. -/
def slice (cs : List Char) (i j : Nat) : List Char :=
  (cs.drop i).take (j - i)

theorem slice_append (a b c : List Char) :
    slice (a ++ (b ++ c)) a.length (a.length + b.length) = b := by
  rw [slice, List.drop_left, Nat.add_sub_cancel_left, List.take_left]

theorem slice_all (cs : List Char) : slice cs 0 cs.length = cs :=
  List.take_length

theorem slice_slice {i j k : Nat} (hij : i ≤ j) (hjk : j ≤ k) (cs : List Char) :
    slice cs i j ++ slice cs j k = slice cs i k := by
  have hsum : k - i = (j - i) + (k - j) := by omega
  have hdrop : (cs.drop i).drop (j - i) = cs.drop j := by
    rw [List.drop_drop, Nat.add_sub_cancel' hij]
  unfold slice
  rw [hsum, List.take_add, hdrop]

/-- The texts between the tokens `ts`, from the offset `i` up to the offset `stop`, each with the
text that it stands in front of. -/
def gapsBetween (cs : List Char) : (i : Nat) → (ts : List Token) → (stop : Nat) →
    List (List Char × List Char)
  | i, [], stop => [(slice cs i stop, cs.drop stop)]
  | i, t :: ts, stop =>
    (slice cs i t.position.offset.toNat, cs.drop t.position.offset.toNat) ::
      gapsBetween cs (t.position.offset.toNat + t.lexeme.length) ts stop

/-- The gaps and the lexemes of the tokens in turn, beginning with a gap. -/
def weave : (gaps : List (List Char × List Char)) → (ts : List Token) → List Char
  | gap :: gaps, t :: ts => gap.1 ++ (t.lexeme.toList ++ weave gaps ts)
  | gaps, _ => gaps.flatMap (·.1)

/-! ## Tiles -/

/-- The tokens `ts` and the gaps between them are the text from the offset `i` up to the offset
`stop`. -/
structure Tiles (cs : List Char) (i : Nat) (ts : List Token) (stop : Nat) : Prop where
  /-- They end behind their beginning. -/
  le_stop : i ≤ stop
  /-- They end where the text does, or before. -/
  stop_le : stop ≤ cs.length
  /-- The tokens stand within these bounds. -/
  bounds : ∀ t ∈ ts, (i : Int) ≤ t.position.offset ∧ t.position.offset < stop
  /-- Each one stands in front of the next. -/
  increasing : ts.Pairwise fun t u => t.position.offset < u.position.offset
  /-- Their lines and columns are those of the text. -/
  marks : ∀ t ∈ ts, t.position.Marks cs
  /-- At the offset of a token the text is its lexeme, which is not empty. -/
  lexemes : ∀ t ∈ ts, t.lexeme ≠ "" ∧
    slice cs t.position.offset.toNat (t.position.offset.toNat + t.lexeme.length) = t.lexeme.toList
  /-- Between the tokens stand blanks and comments, each of which ends with its line. -/
  gaps : ∀ gap ∈ gapsBetween cs i ts stop, Skips gap.1 gap.2
  /-- Nothing is lost and nothing stands twice. -/
  whole : weave (gapsBetween cs i ts stop) ts = slice cs i stop

theorem offset_start_after (before : List Char) :
    (Position.start.after before).offset = before.length := by
  rw [Position.offset_after]
  exact Int.zero_add _

theorem Tiles.gap (before : List Char) {gap rest : List Char} (hg : Skips gap rest) :
    Tiles (before ++ (gap ++ rest)) before.length [] (before.length + gap.length) where
  le_stop := Nat.le_add_right _ _
  stop_le := by simp only [List.length_append]; omega
  bounds := List.forall_mem_nil _
  increasing := .nil
  marks := List.forall_mem_nil _
  lexemes := List.forall_mem_nil _
  gaps := by
    refine List.forall_mem_singleton.mpr ?_
    rw [slice_append, ← List.append_assoc, ← List.length_append, List.drop_left]
    exact hg
  whole := by simp [weave, gapsBetween]

theorem take_gap (before gap rest : List Char) :
    (before ++ (gap ++ rest)).take (before.length + gap.length) = before ++ gap := by
  rw [← List.append_assoc, ← List.length_append, List.take_left]

theorem Tiles.token (content : Content) {before gap text rest : List Char} {ts : List Token}
    {stop : Nat} (hg : Skips gap (text ++ rest)) (htext : text ≠ [])
    (h : Tiles (before ++ (gap ++ (text ++ rest))) (before.length + gap.length + text.length)
      ts stop) :
    Tiles (before ++ (gap ++ (text ++ rest))) before.length
      (⟨content, .after .start (before ++ gap), String.ofList text⟩ :: ts) stop := by
  have hoffset := offset_start_after (before ++ gap)
  rw [List.length_append] at hoffset
  have hoffset' : (Position.start.after (before ++ gap)).offset.toNat =
      before.length + gap.length := by
    rw [hoffset]
    rfl
  have hlength : (String.ofList text).length = text.length := by
    rw [← String.length_toList, String.toList_ofList]
  have hpos := List.length_pos_iff.mpr htext
  have hcs : before ++ (gap ++ (text ++ rest)) = (before ++ gap) ++ (text ++ rest) := by
    rw [List.append_assoc]
  have hgap : slice (before ++ (gap ++ (text ++ rest))) before.length
      (before.length + gap.length) = gap := slice_append before gap (text ++ rest)
  have htext' : slice (before ++ (gap ++ (text ++ rest))) (before.length + gap.length)
      (before.length + gap.length + text.length) = text := by
    rw [hcs, ← List.length_append]
    exact slice_append (before ++ gap) text rest
  have hdrop : (before ++ (gap ++ (text ++ rest))).drop (before.length + gap.length) =
      text ++ rest := by
    rw [hcs, ← List.length_append, List.drop_left]
  refine ⟨?_, h.stop_le, ?_, ?_, ?_, ?_, ?_, ?_⟩
  · have := h.le_stop
    omega
  · refine List.forall_mem_cons.mpr ⟨?_, fun t ht => ?_⟩
    · have := h.le_stop
      dsimp only
      omega
    · have := h.bounds t ht
      omega
  · refine List.pairwise_cons.mpr ⟨fun t ht => ?_, h.increasing⟩
    have := (h.bounds t ht).1
    dsimp only
    omega
  · refine List.forall_mem_cons.mpr ⟨?_, h.marks⟩
    rw [hcs]
    exact Position.marks_after _ _
  · refine List.forall_mem_cons.mpr ⟨⟨?_, ?_⟩, h.lexemes⟩
    · exact fun hempty => htext (String.ofList_eq_empty_iff.mp hempty)
    · dsimp only
      rw [hoffset', hlength, htext', String.toList_ofList]
  · rw [gapsBetween]
    dsimp only
    rw [hoffset', hlength]
    refine List.forall_mem_cons.mpr ⟨?_, h.gaps⟩
    dsimp only
    rwa [hgap, hdrop]
  · have htail := slice_slice (Nat.le_add_right (before.length + gap.length) text.length)
      h.le_stop (before ++ (gap ++ (text ++ rest)))
    rw [htext'] at htail
    rw [gapsBetween, weave]
    dsimp only
    rw [hoffset', hlength, h.whole, String.toList_ofList, htail]
    exact slice_slice (Nat.le_add_right _ _) (Nat.le_trans (Nat.le_add_right _ _) h.le_stop) _

/-- The tokens of a text behind some other text tile it, up to its end or up to the error. -/
theorem Tokenizes.tiles (before : List Char) {cs : List Char} {ts : List Token}
    {failure : Option Error}
    (h : Tokenizes (.after .start before) cs ts failure) :
    ∃ us stop, Tiles (before ++ cs) before.length us stop ∧ (∀ t ∈ us, t.isEnd = false) ∧
      (failure = none → ts = us ++ [.endAt (.after .start (before ++ cs))] ∧
        stop = (before ++ cs).length) ∧
      ∀ err, failure = some err → ts = us ∧
        err.position? = some (.after .start ((before ++ cs).take stop)) := by
  generalize hp : Position.start.after before = p at h
  induction h generalizing before with
  | @finish p gap hg =>
    subst hp
    have htiles := Tiles.gap before hg.skips
    rw [List.append_nil] at htiles
    refine ⟨[], _, htiles, List.forall_mem_nil _, fun _ => ⟨?_, ?_⟩, fun _ hf => by cases hf⟩
    · rw [Position.after_append]
      rfl
    · rw [List.length_append]
  | @token p gap text rest content ts failure hg hm later ih =>
    subst hp
    obtain ⟨us, stop, htiles, hopen, hnone, hsome⟩ := ih (before ++ (gap ++ text))
      (by rw [Position.after_append, Position.after_append])
    have hcs : before ++ (gap ++ text) ++ rest = before ++ (gap ++ (text ++ rest)) := by
      simp only [List.append_assoc]
    have hlength : (before ++ (gap ++ text)).length =
        before.length + gap.length + text.length := by
      simp only [List.length_append, Nat.add_assoc]
    rw [hcs] at hnone hsome
    rw [hcs, hlength] at htiles
    have htoken := Tiles.token content hg.skips hm.spells.ne_nil htiles
    have hend : Token.isEnd ⟨content, .after .start (before ++ gap), String.ofList text⟩ =
        false := by
      simpa [Token.isEnd, Token.kind] using hm.spells.kind_ne_eof
    rw [← Position.after_append]
    refine ⟨_, stop, htoken, List.forall_mem_cons.mpr ⟨hend, hopen⟩, fun hf => ?_, fun err he => ?_⟩
    · exact ⟨congrArg (_ :: ·) (hnone hf).1, (hnone hf).2⟩
    · exact ⟨congrArg (_ :: ·) (hsome err he).1, (hsome err he).2⟩
  | @malformed p gap text rest fault hg hm =>
    subst hp
    refine ⟨[], _, .gap before hg.skips, List.forall_mem_nil _, fun hf => ?_, ?_⟩
    · cases hf
    · rintro err ⟨rfl⟩
      exact ⟨rfl, by rw [take_gap, Position.after_append]; rfl⟩
  | @unrecognized p gap cs c hg hm =>
    subst hp
    refine ⟨[], _, .gap before hg.skips, List.forall_mem_nil _, fun hf => ?_, ?_⟩
    · cases hf
    · rintro err ⟨rfl⟩
      exact ⟨rfl, by rw [take_gap, Position.after_append]; rfl⟩

theorem Tiles.offsets_increase {cs : List Char} {ts : List Token} (h : Tiles cs 0 ts cs.length) :
    List.Pairwise (fun t u => t.position.offset < u.position.offset)
      (ts ++ [Token.endAt (.after .start cs)]) := by
  refine List.pairwise_append.mpr ⟨h.increasing, List.pairwise_singleton _ _, ?_⟩
  intro t ht e he
  obtain rfl := List.mem_singleton.mp he
  have hlt := (h.bounds t ht).2
  rwa [← offset_start_after cs] at hlt

theorem offsets_increase_of_tokenize {source : String} {tokens : List Token}
    (h : tokenize source = .ok tokens) :
    tokens.Pairwise fun t u => t.position.offset < u.position.offset := by
  obtain ⟨us, stop, htiles, -, hnone, -⟩ := Tokenizes.tiles [] (tokenize_ok_iff.mp h)
  obtain ⟨rfl, rfl⟩ := hnone rfl
  exact htiles.offsets_increase

/-! ## Scripts -/

/-- The tokens of a script tile it.

* A script that is read to its end has one end mark, which is its last token and stands at its
  end.  The other tokens tile the script.  The offsets of all of them increase, and their lines
  and columns are those of the script.
* If a script is not read to its end, the tokens before the error tile the text in front of it,
  and there is no end mark among them. -/
theorem tokens_tile (source : String) :
    (∀ tokens, tokenize source = .ok tokens → ∃ (ts : List Token) (e : Token),
      tokens = ts ++ [e] ∧ e = .endAt e.position ∧ e.position.offset = source.length ∧
      e.position.Marks source.toList ∧ (∀ t ∈ ts, t.isEnd = false) ∧
      tokens.Pairwise (fun t u => t.position.offset < u.position.offset) ∧
      Tiles source.toList 0 ts source.length ∧
      weave (gapsBetween source.toList 0 ts source.length) ts = source.toList) ∧
    ∀ p fault, tokenize source = .error (.located p fault) →
      p.Marks source.toList ∧ (∀ t ∈ (tokenStream source).tokens, t.isEnd = false) ∧
      Tiles source.toList 0 (tokenStream source).tokens p.offset.toNat := by
  constructor
  · intro tokens h
    obtain ⟨us, stop, htiles, hopen, hnone, -⟩ := Tokenizes.tiles [] (tokenize_ok_iff.mp h)
    obtain ⟨rfl, rfl⟩ := hnone rfl
    have hoffset := offset_start_after source.toList
    have hend := Position.marks_after source.toList []
    rw [List.append_nil] at hend
    have hwhole := htiles.whole.trans (slice_all source.toList)
    exact ⟨us, _, rfl, rfl, hoffset, hend, hopen, htiles.offsets_increase, htiles, hwhole⟩
  · intro p fault h
    obtain ⟨ts, hts⟩ := tokenize_error_iff.mp h
    obtain ⟨us, stop, htiles, hopen, -, hsome⟩ := Tokenizes.tiles [] hts
    obtain ⟨rfl, hp⟩ := hsome _ rfl
    have hp : p = .after .start (source.toList.take stop) := Option.some.inj hp
    have hmarks := Position.marks_after (source.toList.take stop) (source.toList.drop stop)
    rw [List.take_append_drop, ← hp] at hmarks
    have hle : stop ≤ source.toList.length := htiles.stop_le
    have hstop : p.offset.toNat = stop := by
      rw [hp, offset_start_after, List.length_take, Nat.min_eq_left hle]
      rfl
    rw [tokenStream, hts.streamFrom_eq, hstop]
    exact ⟨hmarks, hopen, htiles⟩

/-- Two scripts: a name behind a comment, and a name in front of a character that is not
recognized. -/
theorem tokens_tile_comment :
    tokenize "// a\n b" = .ok [⟨.ident "b", ⟨2, 2, 6⟩, "b"⟩, .endAt ⟨2, 3, 7⟩] ∧
      Tiles "// a\n b".toList 0 [⟨.ident "b", ⟨2, 2, 6⟩, "b"⟩] 7 ∧
    tokenize "b $" = .error (.located ⟨1, 3, 2⟩ (.unrecognized "$")) ∧
      Tiles "b $".toList 0 [⟨.ident "b", .start, "b"⟩] 2 := by
  have hread : tokenize "// a\n b" =
      .ok [⟨.ident "b", ⟨2, 2, 6⟩, "b"⟩, .endAt ⟨2, 3, 7⟩] := by decide +kernel
  have hunread : tokenize "b $" = .error (.located ⟨1, 3, 2⟩ (.unrecognized "$")) := by
    decide +kernel
  have hstream : (tokenStream "b $").tokens = [⟨.ident "b", .start, "b"⟩] := by decide +kernel
  obtain ⟨ts, e, heq, -, -, -, -, -, htiles, -⟩ := (tokens_tile "// a\n b").1 _ hread
  obtain ⟨-, -, htiles'⟩ := (tokens_tile "b $").2 _ _ hunread
  obtain ⟨rfl, -⟩ := List.append_inj' (show [_] ++ [_] = ts ++ [e] from heq) rfl
  rw [hstream] at htiles'
  exact ⟨hread, htiles, hunread, htiles'⟩

end ScriptReader
