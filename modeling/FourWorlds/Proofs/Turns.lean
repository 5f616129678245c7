import FourWorlds.Proofs.CanonicalIds
import FourWorlds.Proofs.Play

/-! # The turns of a game

A run keeps an invariant, `Game.Counts`: the settings are those the game was made with, the turns left
are those allowed less the ones used since all were last given back, and the hidden frame is canonical.
A text that can be read is answered as the formula or the frame in it, and any other one is refused
and changes nothing. A game without turns left goes on answering, and stays as it is until its frame
is replaced.

* `Game.id_pickFrame_mem`: every frame picked is a canonical one.
* `Game.Counts`, `Game.Counts.effect`, `Game.counts_play`: the invariant, one move, and a whole run.
* `Game.move_eq_of_asks`, `Game.move_eq_of_guesses`: what comes of a query and of a guess, by itself or
  in a text.
* `Game.useTurn_of_exhausted`: a game without turns left.
* `turns_of_play`: all of it for any run. -/

namespace FourWorlds

/-- What is picked from an array is an item of it. -/
theorem WordStream.mem_of_fst_pick_eq_some {α : Type} {items : Array α} {words : WordStream} {x : α}
    (h : (words.pick items).1 = some x) : x ∈ items := by
  obtain ⟨i, -, hi⟩ := Option.bind_eq_some_iff.1 h
  exact Array.mem_of_getElem? hi

namespace Game

/-- **Every frame picked is canonical**: it has one of the ids listed, or no relation at all. -/
theorem id_pickFrame_mem (words : WordStream) : (pickFrame words).1.id ∈ canonicalIds := by
  have hpick : (pickFrame words).1
      = (((words.pick canonicalIds).1).map Frame.ofId).getD .empty := by rw [pickFrame]
  rw [hpick]
  cases h : (words.pick canonicalIds).1 with
  | none => exact id_empty_mem_canonicalIds
  | some i =>
      rw [Option.map_some, Option.getD_some, Frame.id_ofId]
      exact WordStream.mem_of_fst_pick_eq_some h

/-! ## The invariant -/

/-- What holds of a game after the moves with the given replies, if it was made with the given
settings. -/
structure Counts (config : Config) (replies : List Reply) (game : Game) : Prop where
  /-- The settings are those the game was made with. -/
  config_eq : game.config = config
  /-- The turns left are those not used. -/
  remaining_eq : game.remaining = config.turns.value - min config.turns.value (turnsUsed replies)
  /-- The hidden frame is canonical. -/
  id_hidden_mem : game.hidden.id ∈ canonicalIds

variable {config : Config} {replies : List Reply} {game after : Game} {m : Move} {reply : Reply}

/-- A game in which the next frame has just been hidden has all its turns. -/
theorem counts_start (words : WordStream) (h : turnsUsed replies = 0) :
    (start config words).Counts config replies where
  config_eq := by rw [start]
  remaining_eq := by rw [start, h, Nat.min_zero, Nat.sub_zero]
  id_hidden_mem := by
    rw [start]
    exact id_pickFrame_mem words

/-- A reply that uses a turn goes with one turn less. -/
theorem Counts.useTurn (h : game.Counts config replies) (hrenews : reply.renews = false)
    (huses : reply.usesTurn = true) : game.useTurn.Counts config (replies ++ [reply]) where
  config_eq := h.config_eq
  remaining_eq := by
    have hused : turnsUsed (replies ++ [reply]) = turnsUsed replies + 1 := by
      rw [turnsUsed_append_singleton, hrenews, huses]
      rfl
    have hremaining := h.remaining_eq
    rw [hused]
    show game.remaining - 1 = _
    omega
  id_hidden_mem := h.id_hidden_mem

/-- **Every move keeps the count.** -/
theorem Counts.effect (h : game.Counts config replies) (heffect : game.Effect m reply after) :
    after.Counts config (replies ++ [reply]) := by
  cases heffect with
  | answered report => exact h.useTurn rfl rfl
  | missed => exact h.useTurn rfl rfl
  | refused e =>
      refine ⟨h.config_eq, ?_, h.id_hidden_mem⟩
      rw [h.remaining_eq, turnsUsed_append_singleton]
      rfl
  -- The other two hide the next frame, and the count begins anew.
  | found =>
      rw [reset, h.config_eq]
      exact counts_start game.words (turnsUsed_append_singleton replies _)
  | replaced =>
      rw [reset, h.config_eq]
      exact counts_start game.words (turnsUsed_append_singleton replies _)

/-- **Every run keeps the count.** -/
theorem counts_play (config : Config) (words : WordStream) (moves : List Move) :
    ((start config words).play moves).2.Counts config ((start config words).play moves).1 :=
  play_induction (P := fun _ replies game => game.Counts config replies) _
    (counts_start words turnsUsed_nil) (fun _ _ _ _ _ _ h heffect => h.effect heffect) moves

/-- No turn is left exactly if as many are used as are allowed. -/
theorem Counts.exhausted_iff (h : game.Counts config replies) :
    game.exhausted ↔ config.turns.value ≤ turnsUsed replies := by
  have hremaining := h.remaining_eq
  rw [exhausted, decide_eq_true_iff]
  omega

/-! ## Queries and guesses -/

/-- **A query is answered and uses a turn**, by itself or in a text. -/
theorem move_eq_of_asks {φ : Formula} (h : m.Asks φ) : game.move m
    = (.answered (.ofCount (game.hidden.validWorlds φ).length), game.useTurn) := by
  rw [move_of_asks h, move, query]

/-- **A guess is judged**, by itself or in a text, and uses a turn unless it is correct. -/
theorem move_eq_of_guesses {F : Frame} (h : m.Guesses F) : game.move m
    = if equivalent F.id game.hidden.id then (.judged (.correct game.hidden), game.reset)
      else (.judged .incorrect, game.useTurn) := by
  rw [move_of_guesses h, move, guess_eq]
  split <;> rfl

/-- Where no turn is left, using one changes nothing. -/
theorem useTurn_of_exhausted (h : game.exhausted) : game.useTurn = game := by
  have hremaining : game.remaining = 0 := of_decide_eq_true h
  rcases game with ⟨config, words, hidden, remaining⟩
  obtain rfl : remaining = 0 := hremaining
  rfl

end Game

/-- **The turns left are those not used.** However a game made with some settings is played, the
turns left are those allowed less the queries answered and incorrect guesses made since it was made,
last reset or last guessed correctly, and none is left exactly if these are as many. A query and a
guess, by itself or in a text that can be read, is then answered from the hidden frame, and uses a
turn unless it is a correct guess; a game without turns left goes on answering both, and only a
correct guess changes it. A text that cannot be read is refused with its error and changes nothing.
And the hidden frame is canonical. -/
theorem turns_of_play (config : Config) (words : WordStream) (moves : List Move) :
    let run := (Game.start config words).play moves
    run.2.remaining = config.turns.value - min config.turns.value (turnsUsed run.1)
      ∧ (run.2.exhausted ↔ config.turns.value ≤ turnsUsed run.1)
      ∧ (∀ m φ, m.Asks φ → run.2.move m
          = (.answered (.ofCount (run.2.hidden.validWorlds φ).length), run.2.useTurn))
      ∧ (∀ m F, m.Guesses F → run.2.move m = if equivalent F.id run.2.hidden.id
          then (.judged (.correct run.2.hidden), run.2.reset)
          else (.judged .incorrect, run.2.useTurn))
      ∧ (run.2.exhausted → (∀ m φ, m.Asks φ → run.2.move m
            = (.answered (.ofCount (run.2.hidden.validWorlds φ).length), run.2))
          ∧ ∀ m F, m.Guesses F → run.2.move m = if equivalent F.id run.2.hidden.id
            then (.judged (.correct run.2.hidden), run.2.reset) else (.judged .incorrect, run.2))
      ∧ (∀ text e, Formula.read text = .error e → run.2.queryText text = ⟨.error e, run.2⟩
          ∧ run.2.move (.queryText text) = (.refused e, run.2))
      ∧ (∀ text e, Frame.read text = .error e → run.2.guessText text = ⟨.error e, run.2⟩
          ∧ run.2.move (.guessText text) = (.refused e, run.2))
      ∧ run.2.hidden.id ∈ canonicalIds := by
  intro run
  have hcounts : run.2.Counts config run.1 := Game.counts_play config words moves
  refine ⟨hcounts.remaining_eq, hcounts.exhausted_iff, fun m φ h => Game.move_eq_of_asks h,
    fun m F h => Game.move_eq_of_guesses h, fun hnone => ⟨fun m φ h => ?_, fun m F h => ?_⟩,
    fun text e h => ⟨?_, ?_⟩, fun text e h => ⟨?_, ?_⟩, hcounts.id_hidden_mem⟩
  · rw [Game.move_eq_of_asks h, Game.useTurn_of_exhausted hnone]
  · rw [Game.move_eq_of_guesses h, Game.useTurn_of_exhausted hnone]
  · rw [Game.queryText, h]
  · rw [Game.move_queryText, h]
  · rw [Game.guessText, h]
  · rw [Game.move_guessText, h]

/-- Two turns are allowed and three queries are asked after a reset, so none is left; the next query is
answered all the same, also in a text, and so is a guess; and a blank text and one with a letter that
is no world are refused. -/
theorem turns_of_play_after_reset :
    let run := (Game.start { turns := ⟨"turns", 1, 99, 2⟩ } (.ofList [7])).play
      [.query (.box .bottom), .reset, .query .top, .query .bottom, .query .top]
    run.2.remaining = 0 ∧ run.2.exhausted
      ∧ (∃ report, run.2.move (.query .bottom) = (.answered report, run.2))
      ∧ (∃ report, run.2.move (.queryText "T") = (.answered report, run.2))
      ∧ (run.2.move (.guess .empty) = if equivalent Frame.empty.id run.2.hidden.id
        then (.judged (.correct run.2.hidden), run.2.reset) else (.judged .incorrect, run.2))
      ∧ run.2.move (.queryText "") = (.refused .blank, run.2)
      ∧ run.2.move (.guessText "z") = (.refused (.unknownWorld 'z' 0), run.2) := by
  intro run
  have hused : turnsUsed run.1 = 3 := rfl
  have hblank : Formula.read "" = .error .blank := by
    have htokens : Formula.lexer.tokens "" = .ok [] := Lexer.tokensFrom_of_trimStart_eq_nil rfl
    rw [Formula.read, htokens]
    rfl
  have hworld : Frame.read "z" = .error (.unknownWorld 'z' 0) := by
    have htokens : Frame.lexer.tokens "z" = .ok [⟨.letter, ['z'], 0⟩] :=
      @Lexer.tokens_eq_ok_singleton FrameKind _ ⟨.letter, ['z']⟩ "z" rfl
        (forall_head?_not_isBlank (by decide)) (by decide +kernel)
    rw [Frame.read, htokens]
    rfl
  obtain ⟨hremaining, hexhausted, -, -, hanswers, hquery, hguess, -⟩ :=
    turns_of_play { turns := ⟨"turns", 1, 99, 2⟩ } (.ofList [7])
      [.query (.box .bottom), .reset, .query .top, .query .bottom, .query .top]
  have hnone : run.2.exhausted := hexhausted.2 (hused ▸ by decide)
  obtain ⟨hasks, hguesses⟩ := hanswers hnone
  refine ⟨hremaining.trans (hused ▸ rfl), hnone, ⟨_, hasks (.query .bottom) .bottom rfl⟩,
    ⟨_, hasks (.queryText "T") .top Move.asks_top⟩, hguesses (.guess .empty) .empty rfl,
    (hquery _ _ hblank).2, (hguess _ _ hworld).2⟩

end FourWorlds
