namespace GrammarDoc.Command

/-- The name of the program. -/
def programName : String :=
  "grammar-converter"

/-- The summary of the command line. -/
def usage : String :=
  "usage: grammar-converter [-h] [-m] [-e] [-d] [-o OUTPUT] [--config CONFIG]\n" ++
  "                         [-v]\n" ++
  "                         [input]\n"

/-- The answer to a call for help. -/
def help : String :=
  usage ++
  "\n" ++
  "Convert an ANTLR v4 grammar (.g4) to Markdown or EBNF.\n" ++
  "\n" ++
  "positional arguments:\n" ++
  "  input                 .g4 file ('-' or omitted reads standard input).\n" ++
  "\n" ++
  "options:\n" ++
  "  -h, --help            show this help message and exit\n" ++
  "  -m, --markdown        Output markdown (default).\n" ++
  "  -e, --ebnf            Output EBNF (wins over --markdown).\n" ++
  "  -d, --divs            Wrap markdown rules in anchored div elements.\n" ++
  "  -o OUTPUT, --output OUTPUT\n" ++
  "                        Destination file ('-' or omitted writes standard\n" ++
  "                        output).\n" ++
  "  --config CONFIG       Explicit TOML settings file.\n" ++
  "  -v, --verbose         Enable debug logging.\n"

end GrammarDoc.Command
