/-!
The texts that tell how to use the program.
-/

namespace MarkupAudit.CommandLine

def version : String := "a11y-auditor 0.1.0\n"

def help : String :=
  "Static WCAG 2.0 AA accessibility auditor for JSX/TSX and HTML sources\n" ++
  "\n" ++
  "Usage: a11y-auditor [OPTIONS] [PATH]\n" ++
  "\n" ++
  "Arguments:\n" ++
  "  [PATH]  File or directory to audit\n" ++
  "\n" ++
  "Options:\n" ++
  "      --json [<FILE>]    Also write the full report as JSON\n" ++
  "  -c, --config <CONFIG>  Configuration file (TOML)\n" ++
  "      --ext <EXT>        " ++
    "File extension to scan (repeatable, replaces configured extensions)\n" ++
  "      --exclude <NAME>   " ++
    "Directory name to skip (repeatable, replaces configured exclusions)\n" ++
  "      --list-rules       Print the rule catalogue and exit\n" ++
  "  -v, --verbose          Enable verbose logging\n" ++
  "  -h, --help             Print help\n" ++
  "  -V, --version          Print version\n"

end MarkupAudit.CommandLine
