import FourWorlds.Config

/-! # Texts of the command line

The texts that are printed instead of a game.

* `shortHelpLines`, `longHelpLines`, `markdownHelpLines`: the summary, the full description and the
  reference of the arguments.
* `versionLines`: the name and the version of the program.
* `turnsOutOfBounds`: what is said of a number of turns that is not allowed. -/

namespace FourWorlds

/-- A text of some lines. -/
def textOfLines (lines : List String) : String := String.join (lines.map (· ++ "\n"))

/-- The summary of the arguments. -/
def shortHelpLines : List String :=
  ["A guessing game over Kripke frames: a modal formula parser, a Kripke semantics evaluator, and a table of four-world frames up to relabelling.",
    "",
    "Usage: kripke_cli [OPTIONS]",
    "",
    "Options:",
    "  -t, --turns <TURNS>        The count of queries and incorrect guesses permitted on each frame [default: 10]",
    "  -s, --seed <SEED>          A seed for sampling frames, for a repeatable game",
    "  -e, --echo                 Write each formula back before the result of a query",
    "  -n, --notation <NOTATION>  The notation to write formulas in [default: unicode] [possible values: ascii, unicode, latex]",
    "      --markdown-help        Print a reference for these arguments as markdown, and exit",
    "  -h, --help                 Print help (see more with '--help')",
    "  -V, --version              Print version"]

/-- The full description of the arguments. -/
def longHelpLines : List String :=
  ["A guessing game over Kripke frames: a modal formula parser, a Kripke semantics evaluator, and a table of four-world frames up to relabelling.",
    "",
    "Usage: kripke_cli [OPTIONS]",
    "",
    "Options:",
    "  -t, --turns <TURNS>",
    "          The count of queries and incorrect guesses permitted on each frame",
    "          ",
    "          [default: 10]",
    "",
    "  -s, --seed <SEED>",
    "          A seed for sampling frames, for a repeatable game",
    "",
    "  -e, --echo",
    "          Write each formula back before the result of a query",
    "",
    "  -n, --notation <NOTATION>",
    "          The notation to write formulas in",
    "",
    "          Possible values:",
    "          - ascii:   ASCII symbols, e.g. `[]p -> <>p`",
    "          - unicode: Unicode symbols, e.g. `□p → ⋄p`",
    "          - latex:   LaTeX commands, e.g. `\\Box p \\to \\Diamond p`",
    "          ",
    "          [default: unicode]",
    "",
    "      --markdown-help",
    "          Print a reference for these arguments as markdown, and exit",
    "",
    "  -h, --help",
    "          Print help (see a summary with '-h')",
    "",
    "  -V, --version",
    "          Print version"]

/-- The reference of the arguments, in Markdown. -/
def markdownHelpLines : List String :=
  ["# Command-Line Help for `kripke_guess`",
    "",
    "This document contains the help content for the `kripke_guess` command-line program.",
    "",
    "**Command Overview:**",
    "",
    "* [`kripke_guess`↴](#kripke_guess)",
    "",
    "## `kripke_guess`",
    "",
    "A guessing game over Kripke frames: a modal formula parser, a Kripke semantics evaluator, and a table of four-world frames up to relabelling.",
    "",
    "**Usage:** `kripke_guess [OPTIONS]`",
    "",
    "###### **Options:**",
    "",
    "* `-t`, `--turns <TURNS>` — The count of queries and incorrect guesses permitted on each frame",
    "",
    "  Default value: `10`",
    "* `-s`, `--seed <SEED>` — A seed for sampling frames, for a repeatable game",
    "* `-e`, `--echo` — Write each formula back before the result of a query",
    "",
    "  Default value: `false`",
    "* `-n`, `--notation <NOTATION>` — The notation to write formulas in",
    "",
    "  Default value: `unicode`",
    "",
    "  Possible values:",
    "  - `ascii`:",
    "    ASCII symbols, e.g. `[]p -> <>p`",
    "  - `unicode`:",
    "    Unicode symbols, e.g. `□p → ⋄p`",
    "  - `latex`:",
    "    LaTeX commands, e.g. `\\Box p \\to \\Diamond p`",
    "",
    "* `--markdown-help` — Print a reference for these arguments as markdown, and exit",
    "",
    "  Default value: `false`",
    "",
    "",
    "",
    "<hr/>",
    "",
    "<small><i>",
    "    This document was generated automatically by",
    "    <a href=\"https://crates.io/crates/clap-markdown\"><code>clap-markdown</code></a>.",
    "</i></small>"]

/-- The name and the version of the program. -/
def versionLines : List String := ["kripke_guess 0.1.0"]

/-- What is said of a number of turns that is not allowed. -/
def turnsOutOfBounds (turns : Setting Nat) : String :=
  s!"turns requires a value between {turns.min} and {turns.max}\n"

end FourWorlds
