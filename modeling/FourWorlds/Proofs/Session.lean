import FourWorlds.CommandLine.Lines
import FourWorlds.CommandLine.Session
import FourWorlds.Proofs.Play
import Mathlib.Data.List.Chain

/-! # Sessions as play

A session goes in rounds, one for each line that is processed. A round makes the move that its line
asks for, if it asks for one, and resets the game if that leaves no turn. The invariant is that some
turn is left at every prompt; so none is left behind a line only if its own move has used the last.

* `Command.move?`, `Game.moved`, `Game.usesTurn`: the move of a command, and what it does to a game.
* `Game.next`: the game at the prompt behind a line.
* `Game.obey_snd`, `Game.answer_eq_some_iff`: what a line does is what its move does.
* `Game.Ready`, `Game.Ready.next`: the invariant, and one round.
* `Round`, `Game.rounds`, `Game.forall_mem_rounds`: the rounds of a session, and what each of them
  keeps.
* `Game.exists_texts_eq_rounds`: which lines have a round. -/

namespace FourWorlds

/-! ## What a line does -/

/-- The move that a command asks for, if it asks for one. -/
def Command.move? : Command → Option Move
  | guess text => some (.guessText text)
  | reset => some .reset
  | query text => some (.queryText text)
  | reveal | graph | help | leave | nothing => none

namespace Game

variable {config : Config} {game after : Game} {command : Command} {line : String}
  {messages : List Message}

/-- The game after the move that a command asks for, if it asks for one. -/
def moved (game : Game) (command : Command) : Game :=
  match command.move? with
  | some m => (game.move m).2
  | none => game

/-- The game at the prompt behind a line: after its move, and reset once more if no turn is left. -/
def next (game : Game) (line : String) : Game :=
  if (game.moved (.read line)).exhausted then (game.moved (.read line)).reset
  else game.moved (.read line)

/-- Whether the move that a command asks for uses a turn. -/
def usesTurn (game : Game) (command : Command) : Bool :=
  command.move?.any fun m => (game.move m).1.usesTurn

/-- **A command is obeyed by its move**, whichever way it is carried out. -/
theorem obey_snd (game : Game) (command : Command) :
    (game.obey command).2 = game.moved command := by
  cases command with
  | guess text =>
      show (game.obeyGuess text).2 = (game.move (.guessText text)).2
      rw [obeyGuess, move]
      rcases game.guessText text with e | ⟨_ | _, after⟩ <;> rfl
  | query text =>
      -- The text is read here before the query, and there within it.
      show (game.obeyQuery text).2 = (game.move (.queryText text)).2
      rw [obeyQuery, move_queryText]
      cases Formula.read text <;> rfl
  | reset | reveal | graph | help | leave | nothing => rfl

/-- No command is answered by the end of the game, or by a prompt. -/
theorem not_mem_obey (game : Game) (command : Command) :
    .gameOver ∉ (game.obey command).1 ∧ ∀ n, .prompt n ∉ (game.obey command).1 := by
  cases command with
  | guess text =>
      rw [obey, obeyGuess]
      rcases game.guessText text with e | ⟨_ | _, after⟩ <;> simp [announcement]
  | query text =>
      rw [obey, obeyQuery]
      cases Formula.read text with
      | error e => simp
      | ok φ =>
          rcases game.query φ with ⟨report, after⟩
          by_cases hecho : game.config.echo.value <;> simp [hecho]
  | reset | reveal | graph | help => simp [obey, announcement]
  | leave | nothing => simp [obey]

/-- **What a line is answered with**, and the game at the prompt behind it. -/
theorem answer_eq_some_iff : game.answer line = some (messages, after)
    ↔ Command.read line ≠ .leave ∧ after = game.next line
      ∧ messages = (game.obey (.read line)).1 ++ (game.moved (.read line)).settle.1
        ++ [.prompt after.remaining] := by
  have hnext : (game.obey (.read line)).2.settle.2 = game.next line := by
    rw [obey_snd, settle, next]
    split <;> rfl
  rw [answer, ← obey_snd]
  split
  · next hleave => simp [hleave]
  · next hother =>
      dsimp only
      rw [hnext, Option.some.injEq, Prod.mk.injEq]
      constructor
      · rintro ⟨rfl, rfl⟩
        exact ⟨hother, rfl, rfl⟩
      · rintro ⟨-, rfl, rfl⟩
        exact ⟨rfl, rfl⟩

/-- A line is answered by one prompt, which comes last and shows the turns that are left at it. -/
theorem prompt_of_answer (hanswer : game.answer line = some (messages, after)) :
    messages.getLast? = some (.prompt after.remaining)
      ∧ ∀ n, .prompt n ∈ messages → n = after.remaining := by
  obtain ⟨-, -, rfl⟩ := answer_eq_some_iff.1 hanswer
  have hobey := (game.not_mem_obey (.read line)).2
  have hsettle : ∀ n, .prompt n ∉ (game.moved (.read line)).settle.1 := by
    rw [settle]
    split <;> simp [announcement]
  refine ⟨List.getLast?_concat, fun n hmem => ?_⟩
  simpa [hobey n, hsettle n] using hmem

/-- Only the line with which the player leaves is not answered. -/
theorem answer_eq_none_iff : game.answer line = none ↔ Command.read line = .leave := by
  rw [answer]
  split
  · next hleave => exact iff_of_true rfl hleave
  · next hother => exact iff_of_false nofun hother

/-- **All that a command can do to a game**: use a turn, reset the game, or leave it as it was. -/
theorem moved_cases (game : Game) (command : Command) :
    (game.usesTurn command ∧ game.moved command = game.useTurn)
      ∨ ¬ game.usesTurn command
        ∧ (game.moved command = game ∨ game.moved command = game.reset) := by
  rw [usesTurn, moved]
  cases command.move? with
  | none => exact .inr ⟨nofun, .inl rfl⟩
  | some m =>
      rw [Option.any_some]
      dsimp only
      have heffect := game.effect_move m
      generalize game.move m = turn at heffect ⊢
      obtain ⟨reply, after⟩ := turn
      cases heffect with
      | answered report => exact .inl ⟨rfl, rfl⟩
      | missed => exact .inl ⟨rfl, rfl⟩
      | refused e => exact .inr ⟨nofun, .inl rfl⟩
      | found => exact .inr ⟨nofun, .inr rfl⟩
      | replaced => exact .inr ⟨nofun, .inr rfl⟩

/-! ## The turns at the prompts -/

/-- What holds of a game at a prompt, if it was made with the given settings. -/
structure Ready (config : Config) (game : Game) : Prop where
  /-- The settings are those the game was made with. -/
  config_eq : game.config = config
  /-- Some turn is left. -/
  one_le_remaining : 1 ≤ game.remaining
  /-- No more turns are left than are allowed. -/
  remaining_le : game.remaining ≤ config.turns.value

/-- A game in which the next frame has just been hidden has all its turns. -/
theorem remaining_start (config : Config) (words : WordStream) :
    (start config words).remaining = config.turns.value := by
  rw [start]

/-- A game in which the next frame has just been hidden is ready, if any turn is allowed. -/
theorem ready_start (words : WordStream) (h : 1 ≤ config.turns.value) :
    (start config words).Ready config where
  config_eq := by rw [start]
  one_le_remaining := by rwa [remaining_start]
  remaining_le := (remaining_start config words).le

/-- A game with the given settings is ready after a reset, if any turn is allowed. -/
theorem ready_reset (hconfig : game.config = config) (h : 1 ≤ config.turns.value) :
    game.reset.Ready config := by
  rw [reset, hconfig]
  exact ready_start game.words h

/-- A game that is ready has turns left. -/
theorem Ready.not_exhausted (h : game.Ready config) : ¬ game.exhausted := by
  have hturn := h.one_le_remaining
  rw [exhausted, decide_eq_true_iff]
  omega

/-- **A command leaves no turn exactly if its move uses the last one.** -/
theorem Ready.exhausted_moved_iff (h : game.Ready config) :
    (game.moved command).exhausted ↔ game.remaining = 1 ∧ game.usesTurn command := by
  have hturn := h.one_le_remaining
  have hreset : ¬ game.reset.exhausted :=
    (ready_reset h.config_eq (hturn.trans h.remaining_le)).not_exhausted
  rcases game.moved_cases command with ⟨huses, hmoved⟩ | ⟨hnot, hmoved⟩
  · rw [hmoved, and_iff_left huses, exhausted, decide_eq_true_iff]
    show game.remaining - 1 = 0 ↔ game.remaining = 1
    omega
  · refine iff_of_false ?_ fun hlast => hnot hlast.2
    rcases hmoved with hmoved | hmoved <;> rw [hmoved]
    · exact h.not_exhausted
    · exact hreset

/-- **A game that is ready at a prompt is so at the next one.** -/
theorem Ready.next (h : game.Ready config) (line : String) : (game.next line).Ready config := by
  have hturns : 1 ≤ config.turns.value := h.one_le_remaining.trans h.remaining_le
  have hreset : game.reset.Ready config := ready_reset h.config_eq hturns
  rw [Game.next]
  rcases game.moved_cases (.read line) with ⟨-, hmoved⟩ | ⟨-, hmoved | hmoved⟩ <;> rw [hmoved]
  · by_cases hnone : game.useTurn.exhausted
    · rw [if_pos hnone]
      exact ready_reset h.config_eq hturns
    · rw [if_neg hnone]
      have hleft : 1 ≤ game.useTurn.remaining := by
        rw [exhausted, decide_eq_true_iff] at hnone
        omega
      exact ⟨h.config_eq, hleft, (Nat.sub_le _ _).trans h.remaining_le⟩
  · rw [if_neg h.not_exhausted]
    exact h
  · rw [if_neg hreset.not_exhausted]
    exact hreset

/-- **The end of the game is told for the frame whose last turn is used**, and then the next one is
hidden. -/
theorem Ready.messages_of_last (h : game.Ready config)
    (hanswer : game.answer line = some (messages, after))
    (hlast : game.remaining = 1 ∧ game.usesTurn (.read line)) :
    messages = (game.obey (.read line)).1
      ++ [.gameOver, .frame game.hidden, after.announcement, .prompt config.turns.value] := by
  obtain ⟨-, rfl, rfl⟩ := answer_eq_some_iff.1 hanswer
  have hnone : (game.moved (.read line)).exhausted := h.exhausted_moved_iff.2 hlast
  have hmoved : game.moved (.read line) = game.useTurn := by
    rcases game.moved_cases (.read line) with ⟨-, hmoved⟩ | ⟨hnot, -⟩
    · exact hmoved
    · exact absurd hlast.2 hnot
  have hremaining : game.useTurn.reset.remaining = config.turns.value := by
    rw [reset, remaining_start]
    exact congrArg (·.turns.value) h.config_eq
  rw [settle, Game.next, if_pos hnone, if_pos hnone, hmoved, hremaining, List.append_assoc]
  rfl

/-- For any other line nothing is told but what comes of the command. -/
theorem Ready.messages_of_not_last (h : game.Ready config)
    (hanswer : game.answer line = some (messages, after))
    (hlast : ¬ (game.remaining = 1 ∧ game.usesTurn (.read line))) :
    messages = (game.obey (.read line)).1 ++ [.prompt after.remaining] := by
  obtain ⟨-, rfl, rfl⟩ := answer_eq_some_iff.1 hanswer
  rw [settle, if_neg fun hnone => hlast (h.exhausted_moved_iff.1 hnone), List.append_nil]

/-- The end of the game is told exactly for a line that uses the last turn. -/
theorem Ready.gameOver_mem_iff (h : game.Ready config)
    (hanswer : game.answer line = some (messages, after)) :
    .gameOver ∈ messages ↔ game.remaining = 1 ∧ game.usesTurn (.read line) := by
  by_cases hlast : game.remaining = 1 ∧ game.usesTurn (.read line)
  · rw [h.messages_of_last hanswer hlast]
    exact iff_of_true (by simp) hlast
  · rw [h.messages_of_not_last hanswer hlast]
    refine iff_of_false (fun hmem => ?_) hlast
    have hobey := (game.not_mem_obey (.read line)).1
    simp [hobey] at hmem

end Game

/-! ## Rounds -/

/-- What happens from one prompt to the next. -/
structure Round where
  /-- The game at the prompt before the line. -/
  before : Game
  /-- The line. -/
  line : String
  /-- What the player is told. -/
  messages : List Message
  /-- The game at the prompt after the messages. -/
  after : Game

namespace Game

variable {game : Game} {lines : List String}

/-- The rounds of a session with some lines. -/
def rounds (game : Game) : List String → List Round
  | [] => []
  | line :: rest =>
    match game.answer line with
    | none => []
    | some (messages, after) => ⟨game, line, messages, after⟩ :: after.rounds rest

/-- The messages for some lines are those of the rounds. -/
theorem answers_eq (game : Game) (lines : List String) :
    game.answers lines = (game.rounds lines).flatMap (·.messages) := by
  induction lines generalizing game with
  | nil => rfl
  | cons line lines ih =>
      rw [answers, rounds]
      rcases game.answer line with _ | ⟨messages, after⟩
      · rfl
      · dsimp only
        rw [ih, List.flatMap_cons]

/-- **What every line keeps is so at every prompt**, and each round is the answer to its line. -/
theorem forall_mem_rounds {P : Game → Prop} (hnext : ∀ game line, P game → P (game.next line))
    (h : P game) : ∀ round ∈ game.rounds lines, P round.before ∧ P round.after
      ∧ round.before.answer round.line = some (round.messages, round.after) := by
  induction lines generalizing game with
  | nil => simp [rounds]
  | cons line lines ih =>
      rw [rounds]
      rcases hanswer : game.answer line with _ | ⟨messages, after⟩
      · simp
      · have hafter : P after := by
          rw [(answer_eq_some_iff.1 hanswer).2.1]
          exact hnext game line h
        exact List.forall_mem_cons.2 ⟨⟨h, hafter, hanswer⟩, ih hafter⟩

/-- The first round begins with the game at hand, and any other one with what the last one left. -/
theorem isChain_rounds (game : Game) (lines : List String) :
    (∀ round ∈ (game.rounds lines).head?, round.before = game)
      ∧ (game.rounds lines).IsChain fun round following => following.before = round.after := by
  induction lines generalizing game with
  | nil => simp [rounds]
  | cons line lines ih =>
      rw [rounds]
      rcases game.answer line with _ | ⟨messages, after⟩
      · simp
      · exact ⟨by simp, List.isChain_cons.2 (ih after)⟩

/-- **A session goes on up to the line with which the player leaves.** -/
theorem exists_lines_eq (game : Game) (lines : List String) :
    ∃ rest, lines = (game.rounds lines).map (·.line) ++ rest
      ∧ ∀ line ∈ rest.head?, Command.read line = .leave := by
  induction lines generalizing game with
  | nil => exact ⟨[], by simp [rounds], by simp⟩
  | cons line lines ih =>
      rw [rounds]
      rcases hanswer : game.answer line with _ | ⟨messages, after⟩
      · have hleave : Command.read line = .leave := answer_eq_none_iff.1 hanswer
        exact ⟨line :: lines, rfl, by simpa using hleave⟩
      · obtain ⟨rest, hrest, hleave⟩ := ih after
        refine ⟨rest, ?_, hleave⟩
        rw [List.map_cons, List.cons_append, ← hrest]

end Game

/-- **Lines are read up to the first one that is not UTF-8.** -/
theorem exists_texts_eq_readableLines (input : List UInt8) :
    ∃ rest, (byteLines input).map textOfBytes? = (readableLines input).map some ++ rest
      ∧ ∀ text? ∈ rest.head?, text? = none := by
  rw [readableLines]
  generalize (byteLines input).map textOfBytes? = texts
  have hread : ((texts.takeWhile (·.isSome)).filterMap id).map some
      = texts.takeWhile (·.isSome) := by
    induction texts with
    | nil => rfl
    | cons text? texts ih =>
        cases text? with
        | none => rfl
        | some text => exact congrArg (some text :: ·) ih
  refine ⟨texts.dropWhile (·.isSome), ?_, fun text? htext => ?_⟩
  · rw [hread, List.takeWhile_append_dropWhile]
  · have hnot := List.head?_dropWhile_not (fun text : Option String => text.isSome) texts
    rw [Option.mem_def.1 htext] at hnot
    simpa using hnot

/-- **There is a round for each line before the one at which the session ends**: a line that is not
UTF-8, or one with which the player leaves. -/
theorem Game.exists_texts_eq_rounds (game : Game) (input : List UInt8) :
    ∃ rest, (byteLines input).map textOfBytes?
        = (game.rounds (readableLines input)).map (some ·.line) ++ rest
      ∧ ∀ text? ∈ rest.head?, text? = none ∨ ∃ line, text? = some line
        ∧ Command.read line = .leave := by
  obtain ⟨unplayed, hlines, hleave⟩ := game.exists_lines_eq (readableLines input)
  obtain ⟨unread, htexts, hnone⟩ := exists_texts_eq_readableLines input
  refine ⟨unplayed.map some ++ unread, ?_, fun text? htext => ?_⟩
  · have hread : (readableLines input).map some
        = (game.rounds (readableLines input)).map (some ·.line) ++ unplayed.map some :=
      calc (readableLines input).map some
          = ((game.rounds (readableLines input)).map (·.line) ++ unplayed).map some :=
            congrArg (List.map some) hlines
        _ = (game.rounds (readableLines input)).map (some ·.line) ++ unplayed.map some := by
            rw [List.map_append, List.map_map]
            rfl
    rw [htexts, hread, List.append_assoc]
  · cases unplayed with
    | nil => exact .inl (hnone text? htext)
    | cons line unplayed =>
        obtain rfl := Option.some.inj htext
        exact .inr ⟨line, rfl, hleave line rfl⟩

end FourWorlds
