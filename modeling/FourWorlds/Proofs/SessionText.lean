import FourWorlds.CommandLine.Run
import FourWorlds.Proofs.Session

/-! # The text of a session

What a session prints is one text, so that a number of turns or the end of the game could seem to be
told where nothing of the kind is: in a formula written out, in the words of an error, or where one
message ends and the next one begins. That it never is rests on two things. Every message ends in a
blank, so a word without blanks stands within one of them. And only the end of the game has a `g` in
front of an `a`, and only a prompt has a digit in front of a closing bracket.

* `Plain`, `Joins`: texts without such neighbours, and those that stay so behind any plain text.
* `exists_mem_of_infix_join`: a word without blanks stands within one of some texts in a row.
* `Message.plain_of_mem_lines`: every line of every message but the end of the game is plain.
* `occursIn_gameOver_iff`, `occursIn_prompt_iff`: what is printed of some messages tells whether the
  end of the game is among them, and which prompts are.
* `session_refines_game`: what a session prints, for every input. -/

namespace FourWorlds

/-! ## Plain texts -/

/-- No `g` stands in front of an `a`, and no digit in front of a closing bracket. -/
def Plain (text : String) : Prop :=
  text.toList.IsChain fun c d => ¬ (c = 'g' ∧ d = 'a') ∧ ¬ (c.isDigit ∧ d = ']')

instance (text : String) : Decidable (Plain text) :=
  inferInstanceAs (Decidable (List.IsChain _ text.toList))

/-- The text is plain, and stays so behind any plain text. -/
def Joins (text : String) : Prop := Plain text ∧ ∀ d ∈ text.toList.head?, d ≠ 'a' ∧ d ≠ ']'

-- The one character is looked at here, where all characters there are might be.
instance (text : String) : Decidable (Joins text) :=
  @instDecidableAnd _ _ _ (Option.decidableForallMem _)

/-- The text ends in a blank, unless it is empty. -/
def EndsBlank (text : String) : Prop := ∀ c ∈ text.toList.getLast?, c = ' ' ∨ c = '\n'

instance (text : String) : Decidable (EndsBlank text) := Option.decidableForallMem _

section Texts

variable {s t : String} {texts : List String}

/-- Two characters next to each other in a plain text are of neither kind. -/
theorem Plain.of_infix_pair {c d : Char} (hs : Plain s) (h : [c, d] <:+: s.toList) :
    ¬ (c = 'g' ∧ d = 'a') ∧ ¬ (c.isDigit ∧ d = ']') := by
  obtain ⟨before, after, heq⟩ := h
  rw [Plain, ← heq] at hs
  have hpair := (List.isChain_append.1 (List.isChain_append.1 hs).1).2.1
  exact (List.isChain_cons_cons.1 hpair).1

/-- A plain text stays plain with one behind it that joins. -/
theorem Plain.append (hs : Plain s) (ht : Joins t) : Plain (s ++ t) := by
  rw [Plain, String.toList_append]
  refine List.IsChain.append hs ht.1 fun c _ d hd => ?_
  obtain ⟨ha, hbracket⟩ := ht.2 d hd
  exact ⟨fun h => ha h.2, fun h => hbracket h.2⟩

/-- A plain text that ends in a blank stays plain with any plain one behind it. -/
theorem Plain.append_of_endsBlank (hs : Plain s) (hblank : EndsBlank s) (ht : Plain t) :
    Plain (s ++ t) := by
  rw [Plain, String.toList_append]
  refine List.IsChain.append hs ht fun c hc d _ => ?_
  rcases hblank c hc with rfl | rfl
  · exact ⟨fun h => absurd h.1 (by decide), fun h => absurd h.1 (by decide)⟩
  · exact ⟨fun h => absurd h.1 (by decide), fun h => absurd h.1 (by decide)⟩

/-- Texts that join do so in a row. -/
theorem Joins.append (hs : Joins s) (ht : Joins t) : Joins (s ++ t) := by
  refine ⟨hs.1.append ht, fun d hd => ?_⟩
  rw [String.toList_append, List.head?_append] at hd
  cases hfirst : s.toList.head? with
  | none => exact ht.2 d (by simpa [hfirst] using hd)
  | some c => exact hs.2 d (by simpa [hfirst] using hd)

/-- **What passes from a text and a row behind it to both is so of a row of any length.** -/
theorem join_induction {P Q : String → Prop} (hempty : P "")
    (happend : ∀ t rest, Q t → P rest → P (t ++ rest)) (h : ∀ t ∈ texts, Q t) :
    P (String.join texts) := by
  induction texts with
  | nil => exact hempty
  | cons t texts ih =>
      obtain ⟨ht, htexts⟩ := List.forall_mem_cons.1 h
      rw [String.join_cons]
      exact happend t _ ht (ih htexts)

/-- Texts that join do so in a row of any length. -/
theorem joins_join (h : ∀ t ∈ texts, Joins t) : Joins (String.join texts) :=
  join_induction (by decide) (fun _ _ ht hrest => ht.append hrest) h

/-- A row of two texts ends in a blank if the second one does, or the first one if that is empty. -/
theorem EndsBlank.behind (ht : EndsBlank t) (hs : t = "" → EndsBlank s) : EndsBlank (s ++ t) := by
  intro c hc
  rw [String.toList_append, List.getLast?_append] at hc
  cases hlast : t.toList.getLast? with
  | none =>
      have hempty : t = "" := by simpa using hlast
      exact hs hempty c (by simpa [hlast] using hc)
  | some d => exact ht c (by simpa [hlast] using hc)

/-- A row of two texts ends in a blank if the second one does and is not empty. -/
theorem EndsBlank.append (ht : EndsBlank t) (hne : t ≠ "") : EndsBlank (s ++ t) :=
  ht.behind fun h => absurd h hne

/-- A row of texts that end in blanks ends in one. -/
theorem endsBlank_join (h : ∀ t ∈ texts, EndsBlank t) : EndsBlank (String.join texts) :=
  join_induction (by decide) (fun _ _ ht hrest => hrest.behind fun _ => ht) h

/-- Plain texts that end in blanks are plain in a row. -/
theorem plain_join (h : ∀ t ∈ texts, Plain t ∧ EndsBlank t) : Plain (String.join texts) :=
  join_induction (by decide) (fun _ _ ht hrest => ht.1.append_of_endsBlank ht.2 hrest) h

/-- **A word without blanks stands within one of some texts in a row**, if these end in blanks. -/
theorem exists_mem_of_infix_join {word : List Char} (hne : word ≠ [])
    (hword : ∀ c ∈ word, ¬ (c = ' ' ∨ c = '\n')) (hblank : ∀ t ∈ texts, EndsBlank t)
    (h : word <:+: (String.join texts).toList) : ∃ t ∈ texts, word <:+: t.toList := by
  induction texts with
  | nil => exact absurd (List.infix_nil.1 h) hne
  | cons t texts ih =>
      obtain ⟨ht, htexts⟩ := List.forall_mem_cons.1 hblank
      have hrest : word <:+: (String.join texts).toList → ∃ u ∈ t :: texts, word <:+: u.toList := by
        intro h
        obtain ⟨u, hu, hoccurs⟩ := ih htexts h
        exact ⟨u, List.mem_cons_of_mem _ hu, hoccurs⟩
      rw [String.join_cons, String.toList_append, List.infix_append_iff] at h
      rcases h with h | h | ⟨u, v, rfl, ⟨start, hu⟩, hv⟩
      · exact ⟨t, List.mem_cons_self, h⟩
      · exact hrest h
      · rcases List.eq_nil_or_concat u with rfl | ⟨u, c, rfl⟩
        · exact hrest hv.isInfix
        · -- The part of the word in the first text would end in a blank.
          exact absurd (ht c (by simp [← hu])) (hword c (by simp))

end Texts

/-! ## The lines of a message -/

/-- A number is written with digits. -/
theorem isDigit_of_mem_toDigits {n : Nat} {c : Char} (h : c ∈ Nat.toDigits 10 n) : c.isDigit :=
  Nat.isDigit_of_mem_toDigits (by decide) (by decide) h

/-- A number joins any plain text. -/
theorem joins_toString (n : Nat) : Joins (toString n) := by
  have hdigit : ∀ c ∈ (toString n).toList, c ≠ 'a' ∧ c ≠ ']' := by
    intro c hc
    have hc : c.isDigit := isDigit_of_mem_toDigits (Nat.toList_repr ▸ hc)
    constructor <;> (rintro rfl; cases hc)
  refine ⟨List.isChain_iff_getElem.2 fun i hi => ?_,
    fun d hd => hdigit d (List.mem_of_mem_head? hd)⟩
  have hnext := hdigit _ (List.getElem_mem hi)
  exact ⟨fun h => hnext.1 h.2, fun h => hnext.2 h.2⟩

/-- A formula written in any notation joins any plain text. -/
theorem Formula.joins_text (style : Notation) (φ : Formula) : Joins (φ.text style) := by
  have hsymbol : ∀ x, Joins (style.spelling x) := by
    rintro (x | _ | _ | o | c | _ | _)
    · cases style <;> cases x <;> decide
    · cases style <;> decide
    · cases style <;> decide
    · cases style <;> cases o <;> decide
    · cases style <;> cases c <;> decide
    · cases style <;> decide
    · cases style <;> decide
  refine joins_join fun t ht => ?_
  obtain ⟨x, -, rfl⟩ := List.mem_map.1 ht
  exact hsymbol x

/-- What is wrong with a text is worded so that it joins any plain text, whatever letter it shows. -/
theorem ParseError.joins_message (e : ParseError) : Joins e.message := by
  have hquoted : ∀ letter, Joins (quoted letter) := by
    intro letter
    rw [Joins, Plain, quoted, String.toList_ofList]
    simp
  have hnumber := joins_toString
  cases e with
  | blank | unexpectedEnd => decide
  | unknownSymbol offset | unexpectedSymbol offset | unreadInput offset | tooDeep offset =>
      exact Joins.append (by decide) (hnumber offset)
  | unknownAtom letter offset | unknownWorld letter offset =>
      exact (((hquoted letter).append (by decide)).append (hnumber offset)).append (by decide)

/-- The answer to a query is worded and painted so that it joins any plain text. -/
theorem QueryReport.joins_paint (report : QueryReport) :
    Joins (report.colour.paint report.message) := by
  cases report with
  | valid | invalid => decide
  | validIn worlds =>
      have hmessage : Joins (message (.validIn worlds)) := by
        rw [message]
        split
        · decide
        · exact (Joins.append (by decide) (joins_toString worlds)).append (by decide)
      have hcolour : Joins s!"\x1b[38;5;{Colour.yellow.number}m" := by decide
      exact (hcolour.append hmessage).append (by decide)

/-- The graph of a frame is written plainly. -/
theorem Graph.plain_dot (G : Graph) : Plain G.dot := by
  have hnode : ∀ w, Plain (nodeLine w) ∧ EndsBlank (nodeLine w) := by
    intro w
    cases w <;> decide
  have hedge : ∀ e, Plain (edgeLine e) ∧ EndsBlank (edgeLine e) := by
    intro e
    refine ⟨?_, EndsBlank.append (by decide) (by decide)⟩
    exact (((Plain.append (by decide) (joins_toString _)).append (by decide)).append
      (joins_toString _)).append (by decide)
  have hdot : G.dot = String.join
      ("digraph \x7b\n" :: (G.nodes.map nodeLine ++ (G.edges.map edgeLine ++ ["\x7d\n"]))) := by
    simp [dot, String.append_assoc]
  rw [hdot]
  refine plain_join fun t ht => ?_
  simp only [List.mem_cons, List.mem_append, List.mem_map, List.not_mem_nil, or_false] at ht
  rcases ht with rfl | ⟨w, -, rfl⟩ | ⟨e, -, rfl⟩ | rfl
  · decide
  · exact hnode w
  · exact hedge e
  · decide

namespace Message

variable {m : Message} {n : Nat}

/-- **Every line is plain**, unless it is that of the end of the game. -/
theorem plain_of_mem_lines (hm : m ≠ .gameOver) : ∀ line ∈ m.lines, Plain line := by
  cases m with
  | hint | commands => decide
  | created n =>
      have hline : Plain s!"A new Kripke frame is created! It has 4 worlds and {n} relations." :=
        (Plain.append (by decide) (joins_toString n)).append (by decide)
      simpa [lines] using hline
  | prompt => exact nofun
  | frame F =>
      have hid : Plain s!"id: {F.id.val}" := Plain.append (by decide) (joins_toString _)
      -- The letter `a` does not join a text, but a blank stands in front of each target.
      have hletter : ∀ w : World, Plain (toString w.letter) := by
        intro w
        cases w <;> decide
      have hrelation : ∀ r : Relation, Plain s!"{r.source.letter} ==> {r.target.letter}" := by
        intro r
        have hsource : Plain s!"{r.source.letter} ==> " := (hletter r.source).append (by decide)
        have hblank : EndsBlank s!"{r.source.letter} ==> " :=
          EndsBlank.append (by decide) (by decide)
        exact hsource.append_of_endsBlank hblank (hletter r.target)
      simpa [lines, frameLines] using ⟨hid, fun r _ => hrelation r⟩
  | graph F => simpa [lines] using F.graph.plain_dot
  | formula style φ => simpa [lines] using (φ.joins_text style).1
  | queried report => simpa [lines] using report.joins_paint.1
  | guessed report =>
      have hline : Plain (report.colour.paint report.message) := by
        cases report with
        | correct F =>
            show Plain (Colour.green.paint "correct! congratulations!!")
            decide
        | incorrect => decide
      simpa [lines] using hline
  | noFormula e =>
      have hline : Plain s!"invalid formula: {e.message}" := Plain.append (by decide) e.joins_message
      have hexample : Plain "example: Mp -> LMp" := by decide
      simpa [lines] using ⟨hline, hexample⟩
  | noFrame e =>
      have hline : Plain s!"invalid frame expression: {e.message}" :=
        Plain.append (by decide) e.joins_message
      have hexample : Plain "example: aRa, aRb, bRb" := by decide
      simpa [lines] using ⟨hline, hexample⟩
  | gameOver => exact absurd rfl hm

/-! ### The text of a message -/

/-- A line ends in a blank. -/
theorem endsBlank_line (line : String) : EndsBlank (line ++ "\n") :=
  EndsBlank.append (by decide) (by decide)

/-- The text of a message ends in a blank. -/
theorem endsBlank_text (m : Message) : EndsBlank m.text := by
  have hlines : EndsBlank (String.join (m.lines.map (· ++ "\n"))) := by
    refine endsBlank_join fun t ht => ?_
    obtain ⟨line, -, rfl⟩ := List.mem_map.1 ht
    exact endsBlank_line line
  cases m with
  | prompt n => exact EndsBlank.append (by decide) (by decide)
  | _ => exact hlines

/-- The text of a message is plain, unless it is a prompt or the end of the game. -/
theorem plain_text (hm : m ≠ .gameOver) (hprompt : ∀ n, m ≠ .prompt n) : Plain m.text := by
  have hlines : Plain (String.join (m.lines.map (· ++ "\n"))) := by
    refine plain_join fun t ht => ?_
    obtain ⟨line, hline, rfl⟩ := List.mem_map.1 ht
    exact ⟨(plain_of_mem_lines hm line hline).append (by decide), endsBlank_line line⟩
  cases m with
  | prompt n => exact absurd rfl (hprompt n)
  | _ => exact hlines

/-- The characters of a prompt. -/
theorem toList_text_prompt (n : Nat) :
    (text (.prompt n)).toList = '[' :: (Nat.toDigits 10 n ++ [']', ' ']) := by
  have htext : text (.prompt n) = "[" ++ n.repr ++ "] " := rfl
  rw [htext, String.toList_append, String.toList_append, Nat.toList_repr]
  rfl

/-- Numbers written with a closing bracket behind each are equal if they begin alike. -/
theorem eq_of_prefix_toDigits {n k : Nat} {rest : List Char}
    (h : Nat.toDigits 10 n ++ [']'] <+: Nat.toDigits 10 k ++ ']' :: rest) : n = k := by
  obtain ⟨more, h⟩ := h
  rw [List.append_assoc] at h
  have htake : ∀ n rest, (Nat.toDigits 10 n ++ ']' :: rest).takeWhile Char.isDigit
      = Nat.toDigits 10 n := by
    intro n rest
    rw [List.takeWhile_append_of_pos fun c => isDigit_of_mem_toDigits]
    simp
  have heq : Nat.toDigits 10 n = Nat.toDigits 10 k := by
    rw [← htake n more, ← htake k rest]
    exact congrArg _ h
  have hvalue := congrArg (fun digits => Nat.ofDigitChars 10 digits 0) heq
  simpa using hvalue

/-- **Only the end of the game** has a `g` in front of an `a`. -/
theorem eq_gameOver_of_infix_text (h : ['g', 'a'] <:+: m.text.toList) : m = .gameOver := by
  by_contra hm
  by_cases hprompt : ∃ k, m = .prompt k
  · obtain ⟨k, rfl⟩ := hprompt
    have hg : 'g' ∈ (text (.prompt k)).toList := h.subset List.mem_cons_self
    have hdigit : 'g' ∉ Nat.toDigits 10 k := fun hg =>
      absurd (isDigit_of_mem_toDigits hg) (by decide)
    simp [toList_text_prompt, hdigit] at hg
  · have hplain := (plain_text hm fun k hk => hprompt ⟨k, hk⟩).of_infix_pair h
    exact hplain.1 ⟨rfl, rfl⟩

/-- **Only a prompt** shows a number between brackets, and only its own. -/
theorem eq_prompt_of_infix_text (h : '[' :: (Nat.toDigits 10 n ++ [']']) <:+: m.text.toList) :
    m = .prompt n := by
  obtain ⟨digits, c, hc⟩ : ∃ digits c, Nat.toDigits 10 n = digits ++ [c] :=
    ⟨_, _, (List.dropLast_concat_getLast Nat.toDigits_ne_nil).symm⟩
  have hdigit : c.isDigit := isDigit_of_mem_toDigits (n := n) (by simp [hc])
  have hend : [c, ']'] <:+: '[' :: (Nat.toDigits 10 n ++ [']']) :=
    ⟨'[' :: digits, [], by simp [hc]⟩
  by_cases hover : m = .gameOver
  · subst hover
    have hbracket : ']' ∈ (text .gameOver).toList := h.subset (by simp)
    exact absurd hbracket (by decide)
  by_cases hprompt : ∃ k, m = .prompt k
  · obtain ⟨k, rfl⟩ := hprompt
    -- The only opening bracket of a prompt is its first character.
    rw [toList_text_prompt, List.infix_cons_iff] at h
    rcases h with h | h
    · rw [eq_of_prefix_toDigits (List.cons_prefix_cons.1 h).2]
    · have hbracket : '[' ∈ Nat.toDigits 10 k ++ [']', ' '] := h.subset List.mem_cons_self
      have hnot : '[' ∉ Nat.toDigits 10 k := fun h =>
        absurd (isDigit_of_mem_toDigits h) (by decide)
      simp [hnot] at hbracket
  · have hplain := (plain_text hover fun k hk => hprompt ⟨k, hk⟩).of_infix_pair (hend.trans h)
    exact absurd ⟨hdigit, rfl⟩ hplain.2

end Message

/-! ## The text of some messages -/

/-- A text occurs in another one. -/
def OccursIn (part whole : String) : Prop := part.toList <:+: whole.toList

section Messages

variable {messages more : List Message} {n : Nat}

/-- Messages are printed one after another. -/
theorem textOfMessages_append :
    textOfMessages (messages ++ more) = textOfMessages messages ++ textOfMessages more := by
  rw [textOfMessages, List.map_append, String.join_append, textOfMessages, textOfMessages]

/-- The text of each message occurs in that of all. -/
theorem infix_textOfMessages {m : Message} (hm : m ∈ messages) :
    m.text.toList <:+: (textOfMessages messages).toList := by
  obtain ⟨before, after, rfl⟩ := List.append_of_mem hm
  refine ⟨(textOfMessages before).toList, (textOfMessages after).toList, ?_⟩
  rw [textOfMessages_append, textOfMessages, textOfMessages, textOfMessages, List.map_cons,
    String.join_cons, String.toList_append, String.toList_append, List.append_assoc]

/-- A word without blanks occurs in the text of one of the messages. -/
theorem exists_mem_of_infix_textOfMessages {word : List Char} (hne : word ≠ [])
    (hword : ∀ c ∈ word, ¬ (c = ' ' ∨ c = '\n')) (h : word <:+: (textOfMessages messages).toList) :
    ∃ m ∈ messages, word <:+: m.text.toList := by
  have hblank : ∀ t ∈ messages.map Message.text, EndsBlank t := by
    intro t ht
    obtain ⟨m, -, rfl⟩ := List.mem_map.1 ht
    exact m.endsBlank_text
  obtain ⟨t, ht, hoccurs⟩ := exists_mem_of_infix_join hne hword hblank h
  obtain ⟨m, hm, rfl⟩ := List.mem_map.1 ht
  exact ⟨m, hm, hoccurs⟩

/-- **The end of the game is printed exactly if it is told.** -/
theorem occursIn_gameOver_iff :
    OccursIn "game over!" (textOfMessages messages) ↔ .gameOver ∈ messages := by
  constructor
  · intro h
    have hword : ['g', 'a'] <:+: "game over!".toList := by decide
    obtain ⟨m, hm, hoccurs⟩ :=
      exists_mem_of_infix_textOfMessages (by simp) (by simp) (hword.trans h)
    exact Message.eq_gameOver_of_infix_text hoccurs ▸ hm
  · intro h
    have htext : "game over!".toList <:+: (Message.text .gameOver).toList := by decide
    exact htext.trans (infix_textOfMessages h)

/-- **A number of turns is printed exactly if it is told.** -/
theorem occursIn_prompt_iff : OccursIn s!"[{n}] " (textOfMessages messages) ↔ .prompt n ∈ messages := by
  have hprompt : s!"[{n}] " = Message.text (.prompt n) := rfl
  rw [hprompt]
  constructor
  · intro h
    have hword : ∀ c ∈ '[' :: (Nat.toDigits 10 n ++ [']']), ¬ (c = ' ' ∨ c = '\n') := by
      intro c hc
      rw [List.mem_cons, List.mem_append, List.mem_singleton] at hc
      rcases hc with rfl | hc | rfl
      · decide
      · rintro (rfl | rfl) <;> exact absurd (isDigit_of_mem_toDigits hc) (by decide)
      · decide
    have hwhole : (Message.text (.prompt n)).toList
        = '[' :: (Nat.toDigits 10 n ++ [']']) ++ [' '] := by
      simp [Message.toList_text_prompt]
    rw [OccursIn, hwhole] at h
    obtain ⟨m, hm, hoccurs⟩ := exists_mem_of_infix_textOfMessages (List.cons_ne_nil _ _) hword
      ((List.prefix_append _ _).isInfix.trans h)
    exact Message.eq_prompt_of_infix_text hoccurs ▸ hm
  · exact infix_textOfMessages

end Messages

/-! ## Rounds as texts -/

/-- What is printed in a round. -/
def Round.text (round : Round) : String := textOfMessages round.messages

/-- What is printed in some rounds is printed in one after another. -/
theorem textOfMessages_flatMap (rounds : List Round) :
    textOfMessages (rounds.flatMap (·.messages)) = String.join (rounds.map (·.text)) := by
  induction rounds with
  | nil => rfl
  | cons round rounds ih =>
      rw [List.flatMap_cons, textOfMessages_append, ih, List.map_cons, String.join_cons, Round.text]

namespace Game

variable {config : Config} {game after : Game} {line : String} {messages : List Message}

/-- What is printed when a session begins. -/
theorem textOfMessages_opening (game : Game) : textOfMessages game.opening
    = "Run !help for available commands.\n"
      ++ s!"A new Kripke frame is created! It has 4 worlds and {game.hidden.size} relations." ++ "\n"
      ++ s!"[{game.remaining}] " := by
  simp [textOfMessages, opening, announcement, Message.text, Message.lines, String.append_assoc]

/-- **What is printed for a line that uses the last turn** of a frame: what comes of the command, that
the game is over, that frame, how many relations the next one has, and all turns. -/
theorem Ready.text_of_last (h : game.Ready config)
    (hanswer : game.answer line = some (messages, after))
    (hlast : game.remaining = 1 ∧ game.usesTurn (.read line)) : textOfMessages messages
      = textOfMessages (game.obey (.read line)).1 ++ "game over!\n"
        ++ s!"id: {game.hidden.id.val}" ++ "\n"
        ++ String.join (game.hidden.relations.map fun r =>
          s!"{r.source.letter} ==> {r.target.letter}" ++ "\n")
        ++ s!"A new Kripke frame is created! It has 4 worlds and {after.hidden.size} relations."
        ++ "\n" ++ s!"[{config.turns.value}] " := by
  rw [h.messages_of_last hanswer hlast, textOfMessages_append]
  simp [textOfMessages, announcement, Message.text, Message.lines, Message.frameLines,
    String.append_assoc, Function.comp_def]

/-- **What is printed for any other line**: what comes of the command, and the turns left. -/
theorem Ready.text_of_not_last (h : game.Ready config)
    (hanswer : game.answer line = some (messages, after))
    (hlast : ¬ (game.remaining = 1 ∧ game.usesTurn (.read line))) : textOfMessages messages
      = textOfMessages (game.obey (.read line)).1 ++ s!"[{after.remaining}] " := by
  rw [h.messages_of_not_last hanswer hlast, textOfMessages_append]
  rfl

/-- What is printed for a line shows the turns left at the prompt behind it, and no other number of
turns. -/
theorem occursIn_text_iff_of_answer (hanswer : game.answer line = some (messages, after)) (n : Nat) :
    OccursIn s!"[{n}] " (textOfMessages messages) ↔ n = after.remaining := by
  obtain ⟨hlast, honly⟩ := prompt_of_answer hanswer
  rw [occursIn_prompt_iff]
  refine ⟨honly n, ?_⟩
  rintro rfl
  exact List.mem_of_mem_getLast? hlast

/-- What comes of a command is printed without any number of turns or the end of the game. -/
theorem not_occursIn_text_obey (game : Game) (command : Command) :
    ¬ OccursIn "game over!" (textOfMessages (game.obey command).1)
      ∧ ∀ n : Nat, ¬ OccursIn s!"[{n}] " (textOfMessages (game.obey command).1) := by
  obtain ⟨hover, hprompt⟩ := game.not_mem_obey command
  exact ⟨fun h => hover (occursIn_gameOver_iff.1 h), fun n h => hprompt n (occursIn_prompt_iff.1 h)⟩

end Game

/-- **A session plays the game, and prints what comes of it.** At every prompt the game is what the
move of the line before has made of the game at the prompt before that, reset once more exactly if no
turn was left. For each line the output goes on with what comes of its command, and then shows the
turns that are left; for exactly those lines that use the last turn of a frame it tells in between
that the game is over, with the id and the relations of that frame. Every number of turns that is
printed is one from one up to those allowed. And there is a round for each line before the first one
that is not UTF-8 or with which the player leaves. -/
theorem session_refines_game (config : Config) (words : WordStream) (h : 1 ≤ config.turns.value)
    (input : List UInt8) :
    let start := Game.start config words
    let rounds := start.rounds (readableLines input)
    let output := config.session words input
    let opening := "Run !help for available commands.\n"
      ++ s!"A new Kripke frame is created! It has 4 worlds and {start.hidden.size} relations." ++ "\n"
      ++ s!"[{config.turns.value}] "
    (∀ arguments fallback, Plan.ofArguments arguments = .play config →
        config.words fallback = words → run arguments input fallback = (0, output))
      ∧ output = opening ++ String.join (rounds.map (·.text))
      ∧ (∀ round ∈ rounds.head?, round.before = start)
      ∧ (rounds.IsChain fun round following => following.before = round.after)
      ∧ (∀ round ∈ rounds, round.after = round.before.next round.line
        ∧ (∀ n : Nat, OccursIn s!"[{n}] " round.text ↔ n = round.after.remaining)
        ∧ (OccursIn "game over!" round.text
          ↔ round.before.remaining = 1 ∧ round.before.usesTurn (.read round.line))
        ∧ ∃ told, ¬ OccursIn "game over!" told ∧ (∀ n : Nat, ¬ OccursIn s!"[{n}] " told)
          ∧ (¬ OccursIn "game over!" round.text →
            round.text = told ++ s!"[{round.after.remaining}] ")
          ∧ (OccursIn "game over!" round.text → round.text = told ++ "game over!\n"
            ++ s!"id: {round.before.hidden.id.val}" ++ "\n"
            ++ String.join (round.before.hidden.relations.map fun r =>
              s!"{r.source.letter} ==> {r.target.letter}" ++ "\n")
            ++ s!"A new Kripke frame is created! It has 4 worlds and {round.after.hidden.size} relations."
            ++ "\n" ++ s!"[{config.turns.value}] "))
      ∧ ¬ OccursIn "game over!" opening
      ∧ (OccursIn "game over!" output ↔ ∃ round ∈ rounds, OccursIn "game over!" round.text)
      ∧ (∀ n : Nat, OccursIn s!"[{n}] " output → 1 ≤ n ∧ n ≤ config.turns.value)
      ∧ ∃ rest, (byteLines input).map textOfBytes? = rounds.map (some ·.line) ++ rest
        ∧ (∀ round ∈ rounds, Command.read round.line ≠ .leave)
        ∧ ∀ text? ∈ rest.head?, text? = none ∨ ∃ line, text? = some line
          ∧ Command.read line = .leave := by
  intro start rounds output opening
  have hready : start.Ready config := Game.ready_start words h
  have hrounds : ∀ round ∈ rounds, round.before.Ready config ∧ round.after.Ready config
      ∧ round.before.answer round.line = some (round.messages, round.after) :=
    Game.forall_mem_rounds (fun _ line hgame => hgame.next line) hready
  have hopening : textOfMessages start.opening = opening := by
    rw [start.textOfMessages_opening, Game.remaining_start]
  have htranscript : output = textOfMessages (start.opening ++ rounds.flatMap (·.messages)) := by
    show textOfMessages (start.transcript (readableLines input)) = _
    rw [Game.transcript, Game.answers_eq]
  have hgameOver : .gameOver ∉ start.opening := by
    simp [Game.opening, Game.announcement]
  obtain ⟨hhead, hchain⟩ := start.isChain_rounds (readableLines input)
  obtain ⟨rest, hrest, hstops⟩ := start.exists_texts_eq_rounds input
  refine ⟨fun arguments fallback hplan hwords => ?_, ?_, hhead, hchain, fun round hround => ?_, ?_, ?_,
    fun n hn => ?_, rest, hrest, fun round hround => ?_, hstops⟩
  · rw [run, hplan]
    show (0, config.session (config.words fallback) input) = (0, output)
    rw [hwords]
  · rw [htranscript, textOfMessages_append, hopening, textOfMessages_flatMap]
  · obtain ⟨hbefore, -, hanswer⟩ := hrounds round hround
    have hover : OccursIn "game over!" round.text
        ↔ round.before.remaining = 1 ∧ round.before.usesTurn (.read round.line) :=
      occursIn_gameOver_iff.trans (hbefore.gameOver_mem_iff hanswer)
    obtain ⟨htold, hprompts⟩ := round.before.not_occursIn_text_obey (.read round.line)
    exact ⟨(Game.answer_eq_some_iff.1 hanswer).2.1, Game.occursIn_text_iff_of_answer hanswer, hover,
      _, htold, hprompts, fun hnot => hbefore.text_of_not_last hanswer (hover.not.1 hnot),
      fun hlast => hbefore.text_of_last hanswer (hover.1 hlast)⟩
  · rw [← hopening, occursIn_gameOver_iff]
    exact hgameOver
  · rw [htranscript, occursIn_gameOver_iff, List.mem_append, or_iff_right hgameOver, List.mem_flatMap]
    exact exists_congr fun round => and_congr_right fun _ => occursIn_gameOver_iff.symm
  · -- The first prompt is that of the opening, and any other one is that of a round.
    rw [htranscript, occursIn_prompt_iff, List.mem_append, List.mem_flatMap] at hn
    rcases hn with hn | ⟨round, hround, hn⟩
    · obtain rfl : n = start.remaining := by simpa [Game.opening, Game.announcement] using hn
      exact ⟨hready.one_le_remaining, hready.remaining_le⟩
    · obtain ⟨-, hafter, hanswer⟩ := hrounds round hround
      rw [(Game.prompt_of_answer hanswer).2 n hn]
      exact ⟨hafter.one_le_remaining, hafter.remaining_le⟩
  · exact (Game.answer_eq_some_iff.1 (hrounds round hround).2.2).1

/-- With one turn allowed the first of the lines `T`, `!exit` and `T` ends the game, and is the only
one that is answered. -/
theorem session_refines_game_one_turn :
    let config : Config := { turns := ⟨"turns", 1, 99, 1⟩ }
    ∃ start, start = Game.start config (.ofList [7]) ∧ ∃ round told,
      start.rounds (readableLines [84, 10, 33, 101, 120, 105, 116, 10, 84]) = [round]
        ∧ round.line = "T" ∧ round.after = start.next "T"
        ∧ round.text = told ++ "game over!\n" ++ s!"id: {start.hidden.id.val}" ++ "\n"
          ++ String.join (start.hidden.relations.map fun r =>
            s!"{r.source.letter} ==> {r.target.letter}" ++ "\n")
          ++ s!"A new Kripke frame is created! It has 4 worlds and {round.after.hidden.size} relations."
          ++ "\n" ++ s!"[{config.turns.value}] "
        ∧ config.session (.ofList [7]) [84, 10, 33, 101, 120, 105, 116, 10, 84]
          = "Run !help for available commands.\n"
            ++ s!"A new Kripke frame is created! It has 4 worlds and {start.hidden.size} relations."
            ++ "\n" ++ s!"[{config.turns.value}] " ++ String.join [round.text] := by
  intro config
  obtain ⟨-, houtput, hhead, -, hrounds, -, -, -, rest, hrest, hstays, hleave⟩ :=
    session_refines_game config (.ofList [7]) (by decide) [84, 10, 33, 101, 120, 105, 116, 10, 84]
  have hremaining := Game.remaining_start config (.ofList [7])
  -- The frame hidden at the start does not matter.
  generalize Game.start _ _ = start at houtput hhead hrounds hrest hstays hremaining ⊢
  have htexts : (byteLines [84, 10, 33, 101, 120, 105, 116, 10, 84]).map textOfBytes?
      = [some "T", some "!exit", some "T"] := rfl
  have hquery : Command.read "T" = .query "T" := rfl
  have hexit : Command.read "!exit" = .leave := rfl
  have huses : start.usesTurn (.read "T") := by
    rw [hquery, Game.usesTurn, Command.move?, Option.any_some, Game.move_of_asks Move.asks_top]
    rfl
  refine ⟨start, rfl, ?_⟩
  rw [htexts] at hrest
  generalize start.rounds _ = rounds at houtput hhead hrounds hrest hstays ⊢
  -- The player leaves with the second line, not with the first.
  rcases rounds with _ | ⟨⟨before, line, messages, after⟩, _ | ⟨following, more⟩⟩
  · obtain rfl : _ = rest := hrest
    obtain hnone | ⟨line, hline, hleft⟩ := hleave (some "T") rfl
    · cases hnone
    · obtain rfl : "T" = line := Option.some.inj hline
      rw [hquery] at hleft
      cases hleft
  · obtain rfl : before = start := hhead _ rfl
    obtain rfl : "T" = line := Option.some.inj (List.cons.inj hrest).1
    obtain ⟨hafter, -, hover, told, -, -, -, htext⟩ := hrounds _ List.mem_cons_self
    exact ⟨_, told, rfl, rfl, hafter, htext (hover.2 ⟨hremaining, huses⟩), houtput⟩
  · have hline : "!exit" = following.line :=
      Option.some.inj (List.cons.inj (List.cons.inj hrest).2).1
    have hstay : Command.read following.line ≠ .leave := hstays following (by simp)
    exact absurd (hline ▸ hexit) hstay

end FourWorlds
