import FourWorlds.Proofs.Orbit
import FourWorlds.Proofs.Play

/-! # The hidden frame of a game

Frames are picked one after another from the words of a game, one when it is made and one for each
reset and each correct guess. Nothing else draws a word or touches the hidden frame, so which frame is
hidden depends on the words and on the number of these moves, and not on what else was asked.

* `WordStream.picks`: items picked one after another from a stream of words, and `Game.pickedFrame`,
  the frame of the latest of such picks from the canonical ids.
* `renewals`: the resets and correct guesses of a run.
* `Game.Effect.hidden_words`, `Game.hidden_words_play`: the hidden frame and the words after one move,
  and after a run.
* `Game.move_guess_eq`: when a guess is correct.
* `hidden_is_pick`: the hidden frame after any run, and what two runs have in common. -/

namespace FourWorlds

/-- The number of resets among some moves and of correct guesses among the replies to them. -/
def renewals (moves : List Move) (replies : List Reply) : Nat :=
  moves.count .reset + replies.countP (·.isCorrect)

/-- What the last of a number of picks gives, each made from the words that the one before has left,
and the words left after it. -/
def WordStream.picks {α : Type} (items : Array α) (words : WordStream) : Nat → Option α × WordStream
  | 0 => (none, words)
  | k + 1 => (words.picks items k).2.pick items

namespace Game

/-- The frame of the last of a number of picks from the canonical ids, or the one without relations if
nothing is picked. -/
def pickedFrame (words : WordStream) (k : Nat) : Frame :=
  (words.picks canonicalIds k).1.elim .empty Frame.ofId

/-- A game picks its next frame like the next one of some picks. -/
theorem pickFrame_picks (words : WordStream) (k : Nat) : pickFrame (words.picks canonicalIds k).2
    = (pickedFrame words (k + 1), (words.picks canonicalIds (k + 1)).2) := by
  rw [pickFrame, pickedFrame, WordStream.picks]
  rcases (words.picks canonicalIds k).2.pick canonicalIds with ⟨_ | i, rest⟩ <;> rfl

/-- In a new game a frame has just been picked. -/
theorem hidden_words_start (config : Config) (words : WordStream) :
    ((start config words).hidden, (start config words).words) = pickFrame words := by
  rw [start]

variable {game after : Game} {moves : List Move} {replies : List Reply} {m : Move} {reply : Reply}

namespace Effect

/-- **A frame is picked by the moves that give all turns back, and by no others.** -/
theorem hidden_words (h : game.Effect m reply after) : (after.hidden, after.words)
    = if reply.renews then pickFrame game.words else (game.hidden, game.words) := by
  cases h with
  | answered | missed | refused => rfl
  | found | replaced => exact hidden_words_start game.config game.words

/-- The moves that give all turns back are the resets and the correct guesses. -/
theorem renewals_append_singleton (h : game.Effect m reply after) :
    renewals (moves ++ [m]) (replies ++ [reply])
      = renewals moves replies + if reply.renews then 1 else 0 := by
  have hother : m ≠ .reset → [m].count .reset = 0 := by
    intro hm
    rw [List.count_singleton, if_neg (by simpa using hm)]
  rw [renewals, renewals, List.count_append, List.countP_append, List.countP_singleton]
  cases h with
  | answered _ hm | missed hm | refused _ hm | found hm =>
      rw [hother hm]
      rfl
  | replaced =>
      rw [List.count_singleton_self]
      exact Nat.add_right_comm _ 1 _

/-- **No other move draws a word or touches the hidden frame.** -/
theorem hidden_words_eq (h : game.Effect m reply after) (hm : m ≠ .reset)
    (hreply : reply.isCorrect = false) :
    (after.hidden, after.words) = (game.hidden, game.words) := by
  have hrenews : reply.renews = false := by
    cases h with
    | answered | missed | refused => rfl
    | found => cases hreply
    | replaced => exact absurd rfl hm
  rw [h.hidden_words, hrenews]
  rfl

end Effect

/-- **The hidden frame and the words left are those of the latest pick**, the first one and one for
each reset and each correct guess. -/
theorem hidden_words_play (config : Config) (words : WordStream) (moves : List Move) :
    (((start config words).play moves).2.hidden, ((start config words).play moves).2.words)
      = (pickedFrame words (1 + renewals moves ((start config words).play moves).1),
        (words.picks canonicalIds (1 + renewals moves ((start config words).play moves).1)).2) := by
  refine play_induction (P := fun moves replies game => (game.hidden, game.words)
    = (pickedFrame words (1 + renewals moves replies),
      (words.picks canonicalIds (1 + renewals moves replies)).2)) _ ?_ ?_ moves
  · exact (hidden_words_start config words).trans (pickFrame_picks words 0)
  · intro moves replies before m reply after ih heffect
    rw [heffect.hidden_words, heffect.renewals_append_singleton]
    by_cases hrenews : reply.renews
    · rw [if_pos hrenews, if_pos hrenews, ← Nat.add_assoc, ← pickFrame_picks, (Prod.mk.inj ih).2]
    · rw [if_neg hrenews, if_neg hrenews, Nat.add_zero, ih]

/-! ## Guesses -/

/-- **A guess is correct exactly if the frame is like the hidden one**, and then that one is shown. -/
theorem move_guess_eq (game : Game) (F : Frame) :
    (game.move (.guess F)).1 = .judged (.correct game.hidden) ∧ F.Alike game.hidden
    ∨ (game.move (.guess F)).1 = .judged .incorrect ∧ ¬ F.Alike game.hidden := by
  rw [move, guess_eq, ← Frame.equivalent_id_iff]
  by_cases h : equivalent F.id game.hidden.id
  · rw [if_pos h]
    exact .inl ⟨rfl, h⟩
  · rw [if_neg h]
    exact .inr ⟨rfl, h⟩

end Game

/-- **The hidden frame depends on the words and on how often it was replaced.** After any run it is
the one picked last, the first pick being made with the game and one more for each reset and each
correct guess. Other moves draw no word and leave the hidden frame in place. A guess is correct,
and then shows the frame that was hidden, exactly if a bijection of the worlds takes the relations of
the guess onto those of that frame; so two runs on the same words, with any settings, hide the same
frame after equally many resets and correct guesses. -/
theorem hidden_is_pick :
    (∀ config words moves, ((Game.start config words).play moves).2.hidden
        = Game.pickedFrame words (1 + moves.count .reset
          + ((Game.start config words).play moves).1.countP (·.isCorrect)))
      ∧ (∀ (game : Game) (m : Move), m ≠ .reset → (game.move m).1.isCorrect = false →
        (game.move m).2.hidden = game.hidden ∧ (game.move m).2.words = game.words)
      ∧ (∀ (game : Game) (m : Move) (F : Frame), m.Guesses F →
        ((game.move m).1 = .judged (.correct game.hidden) ↔ ∃ f : Relabelling,
            Function.Bijective f ∧ ∀ x y, F.contains ⟨x, y⟩ ↔ game.hidden.contains ⟨f x, f y⟩)
          ∧ ∀ G, (game.move m).1 = .judged (.correct G) → G = game.hidden)
      ∧ ∀ (words : WordStream) (config other : Config) (moves others : List Move),
        moves.count .reset + ((Game.start config words).play moves).1.countP (·.isCorrect)
          = others.count .reset + ((Game.start other words).play others).1.countP (·.isCorrect) →
        ((Game.start config words).play moves).2.hidden
          = ((Game.start other words).play others).2.hidden := by
  have hpick : ∀ config words moves, ((Game.start config words).play moves).2.hidden
      = Game.pickedFrame words (1 + renewals moves ((Game.start config words).play moves).1) :=
    fun config words moves => (Prod.mk.inj (Game.hidden_words_play config words moves)).1
  refine ⟨fun config words moves => ?_, fun game m hm hreply => ?_, fun game m F hguess => ?_,
    fun words config other moves others h => ?_⟩
  · rw [hpick, renewals, Nat.add_assoc]
  · exact Prod.mk.inj ((game.effect_move m).hidden_words_eq hm hreply)
  · rw [Game.move_of_guesses hguess, ← Frame.alike_iff]
    rcases game.move_guess_eq F with ⟨heq, halike⟩ | ⟨heq, halike⟩
    · rw [heq]
      refine ⟨iff_of_true rfl halike, fun G hG => ?_⟩
      exact (GuessReport.correct.inj (Reply.judged.inj hG)).symm
    · rw [heq]
      exact ⟨iff_of_false nofun halike, nofun⟩
  · rw [hpick, hpick, renewals, renewals, h]

/-- One reset each, among different queries, leaves the same frame hidden; and while `bRc` is hidden a
query leaves it in place, and the guess of `aRb` is correct and shows it. -/
theorem hidden_is_pick_one_reset :
    ((Game.start {} (.ofList [7, 5])).play [.query (.box .bottom), .reset]).2.hidden
        = ((Game.start { turns := ⟨"turns", 1, 99, 1⟩ } (.ofList [7, 5])).play
          [.reset, .query .top, .query .bottom]).2.hidden
      ∧ (Game.move ⟨{}, .ofList [7], Frame.ofId 64, 3⟩ (.query .top)).2.hidden = Frame.ofId 64
      ∧ (Game.move ⟨{}, .ofList [7], Frame.ofId 64, 3⟩ (.guess (Frame.ofId 2))).1
        = .judged (.correct (Frame.ofId 64)) := by
  have hbijection : Function.Bijective (Relabelling.ofImages .b .c .d .a)
      ∧ ∀ x y, (Frame.ofId 2).contains ⟨x, y⟩ ↔ (Frame.ofId 64).contains
        ⟨Relabelling.ofImages .b .c .d .a x, Relabelling.ofImages .b .c .d .a y⟩ := by decide
  obtain ⟨-, hother, hguess, hruns⟩ := hidden_is_pick
  refine ⟨hruns _ _ _ _ _ rfl, (hother _ (.query .top) nofun rfl).1, ?_⟩
  exact (hguess ⟨{}, .ofList [7], Frame.ofId 64, 3⟩ (.guess (Frame.ofId 2)) _ rfl).1.2
    ⟨_, hbijection⟩

end FourWorlds
