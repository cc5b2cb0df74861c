import BranchCases.CommandLine.Arguments

/-
The help texts and the listing of suites.
-/
namespace BranchCases.CommandLine

/-- Lines of text, each with its line break. -/
def unlines (lines : List String) : String :=
  String.join (lines.map (· ++ "\n"))

def shortHelp : String := unlines [
  "Generate exhaustive br/elbr/el tests for SBL",
  "",
  "Usage: sbl-brgen [OPTIONS] <SUITE>",
  "",
  "Arguments:",
  "  <SUITE>  Test suite to generate [possible values: br_solo, br_el, br_elbr, br_elbr_el]",
  "",
  "Options:",
  "      --format <FORMAT>  Assertion syntax of each emitted test [default: test] " ++
    "[possible values: test, rust]",
  "      --grep <REGEX>     Only emit tests whose SBL source matches this regex",
  "  -h, --help             Print help (see more with '--help')"]

def longHelp : String := unlines [
  "Generate exhaustive br/elbr/el tests for SBL",
  "",
  "Usage: sbl-brgen [OPTIONS] <SUITE>",
  "",
  "Arguments:",
  "  <SUITE>",
  "          Test suite to generate",
  "",
  "          Possible values:",
  "          - br_solo:    `br` statements nested in `br` statements",
  "          - br_el:      `br ... el` statements nested in `br` statements",
  "          - br_elbr",
  "          - br_elbr_el",
  "",
  "Options:",
  "      --format <FORMAT>",
  "          Assertion syntax of each emitted test",
  "",
  "          Possible values:",
  "          - test: `TEST(main \x7b ... \x7d, [2222, true])`",
  "          - rust: `state_test!(r#\"main \x7b ... \x7d\"#, vec![BCVal::Int(2222)]);`",
  "          ",
  "          [default: test]",
  "",
  "      --grep <REGEX>",
  "          Only emit tests whose SBL source matches this regex",
  "",
  "  -h, --help",
  "          Print help (see a summary with '-h')"]

def HelpLength.text : HelpLength → String
  | .short => shortHelp
  | .long => longHelp

/-- The suites by name, shown where arguments are not understood. -/
def suiteListing : String := unlines <|
  "where SUITE is one of the following:" ::
    (Named.all (α := Suite)).map fun suite => "    * " ++ suite.name

end BranchCases.CommandLine
