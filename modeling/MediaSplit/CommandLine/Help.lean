/-!
What the program says of itself.
-/

namespace MediaSplit.CommandLine

def usageLine : String :=
  "Usage: mqstrip [OPTIONS] [FILES]..."

def hintLine : String :=
  "Try 'mqstrip --help' for help."

def versionLine : String :=
  "mqstrip, version 0.1.0"

def helpLines : List String :=
  [usageLine,
    "",
    "  Split breakpoint media queries out of CSS files.",
    "",
    "  Media blocks matching --widths are collected from every source file into",
    "  --dest; each source is then written again without them.",
    "",
    "Options:",
    "  --version                       Show the version and exit.",
    "  --src TEXT                      Glob pattern selecting source CSS files.",
    "  --dest TEXT                     Output path for the combined media-query file.",
    "  --ignore TEXT                   Glob pattern or path to exclude.",
    "  --widths, --width TEXT          Breakpoint widths to strip, e.g. 400,1200.",
    "  --extract TEXT                  Widths whose media blocks are unwrapped into",
    "                                  the stripped files.",
    "  --override-original, --overrideOriginal / --no-override-original",
    "                                  Overwrite source files instead of writing",
    "                                  suffixed copies.",
    "  --stripped-suffix, --strippedSuffix TEXT",
    "                                  Suffix for stripped files (default: stripped).",
    "  --encoding TEXT                 Encoding of source and output files (default:",
    "                                  utf-8).",
    "  --config FILE                   JSON file with options; command-line flags",
    "                                  take precedence.",
    "  -v, --verbose                   Log progress (-vv for debug output).",
    "  --help                          Show this message and exit."]

end MediaSplit.CommandLine
