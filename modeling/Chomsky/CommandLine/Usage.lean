/-!
# Usage

What the command says about itself: the usage, which precedes every error message, and the help.
-/

namespace Chomsky.CommandLine

def linesText (lines : List String) : String := String.join (lines.map (· ++ "\n"))

def usage : String := linesText
  ["usage: normalize_grammar [-h] [--input INPUT] [--output OUTPUT] [--log LOG]",
   "                         [--augment-start] [--no-deduplicate]",
   "                         [--fresh-prefix FRESH_PREFIX]",
   "                         [--max-nullable-positions MAX_NULLABLE_POSITIONS]",
   "                         [--fail-on-empty]"]

def help : String := usage ++ linesText
  ["",
   "Convert a context-free grammar to Chomsky normal form. The grammar is read",
   "from a JSON file with the fields VN, VT, P, and S. If no input file is given,",
   "a built-in example grammar is used.",
   "",
   "options:",
   "  -h, --help            show this help message and exit",
   "  --input INPUT         Input grammar in JSON format.",
   "  --output OUTPUT       Output file for the normalized grammar in JSON format.",
   "  --log LOG             Optional file where events for each phase will be",
   "                        written.",
   "",
   "Normalization options:",
   "  --augment-start       If the start symbol derives the empty string, keep the",
   "                        empty string in the language by adding a new start",
   "                        symbol S0 with the rules S0 -> S and S0 -> ε.",
   "  --no-deduplicate      Keep repeated rules in the output.",
   "  --fresh-prefix FRESH_PREFIX",
   "                        Prefix of the names of the nonterminals introduced",
   "                        during binarization. Default is X.",
   "  --max-nullable-positions MAX_NULLABLE_POSITIONS",
   "                        Fail if a rule has more than this many nullable",
   "                        nonterminals on its right side. The epsilon phase",
   "                        creates up to 2^k rules for a rule with k nullable",
   "                        positions.",
   "  --fail-on-empty       Exit with an error if the grammar generates no",
   "                        strings."]

end Chomsky.CommandLine
