import MarkupAudit.Rule
import MarkupAudit.Pattern.Build

/-!
The rules of the audit, in the order in which they are applied. Ten look at plain markup; the last
two know the conventions of a component library. Letters match in either case, and a construct may
run over several lines.
-/

namespace MarkupAudit.Catalogue

open Pattern

def genericAlt : Rule where
  name := "generic_alt"
  matcher := .plain <| concat [literal "alt=", quote,
    choice [literal "image", literal "photo", literal "picture", literal "icon", literal "logo",
      literal "graphic", literal "img"],
    quote, star blank, optional (exactly '/'), exactly '>']
  severity := .major
  criterion := "1.1.1"
  problem := "Non-descriptive alt text"
  description := "Alt text should describe image content/purpose"
  remedy := "Use descriptive alt text that conveys image meaning"

/-- A tag up to its closing bracket; the group is the tag's opening. -/
def tag (opening : String) : Pattern :=
  concat [group (literal opening), star (noneOf ['>']), exactly '>']

/-- Any of the words in the rest of a tag. -/
def mentions (words : List String) : Pattern :=
  seq (star (noneOf ['>'])) (choice (words.map literal))

def missingAlt : Rule where
  name := "missing_alt"
  matcher := .guarded (tag "<img") (mentions ["alt="])
  severity := .critical
  criterion := "1.1.1"
  problem := "Missing alt text"
  description := "Images must have alt attribute"
  remedy := "Add alt=\"\" for decorative or descriptive alt text"

def divOnclick : Rule where
  name := "div_onclick"
  matcher := .plain <| concat [exactly '<', choice [literal "div", literal "span"],
    star (noneOf ['>']), plus blank, literal "onClick="]
  severity := .critical
  criterion := "4.1.2"
  problem := "Non-semantic interactive element"
  description := "Use semantic button element for click handlers"
  remedy := "Replace with <button> or add role=\"button\" with keyboard support"

def ambiguousLink : Rule where
  name := "ambiguous_link"
  matcher := .plain <| concat [exactly '>',
    choice [literal "click here", literal "read more", literal "more", literal "link",
      literal "here", literal "go"],
    literal "</a>"]
  severity := .major
  criterion := "2.4.4"
  problem := "Non-descriptive link text"
  description := "Link text should describe destination"
  remedy := "Use descriptive link text or aria-label"

/-- Either the tag names itself, or it has an `id` and a label with `for` comes next. -/
def labelled : Pattern :=
  either (mentions ["aria-label"])
    (concat [star (noneOf ['>']), literal "id=", quote, star (noneOf ['"', '\'']), quote,
      star (noneOf ['>']), exactly '>', star (noneOf ['<']), literal "<label",
      star (noneOf ['>']), literal "for="])

def inputNoLabel : Rule where
  name := "input_no_label"
  matcher := .guarded (tag "<input") labelled
  severity := .critical
  criterion := "3.3.2"
  problem := "Form input without label"
  description := "Form inputs must have associated labels"
  remedy := "Add <label> with htmlFor or aria-label"

def headingSkip : Rule where
  name := "heading_skip"
  matcher := .headingSkip
  severity := .minor
  criterion := "1.3.1"
  problem := "Skipped heading level"
  description := "Heading hierarchy should not skip levels"
  remedy := "Use sequential heading levels (h1 → h2 → h3)"

def positiveTabindex : Rule where
  name := "positive_tabindex"
  matcher := .plain <| concat [literal "tabIndex=", optional quote, between '1' '9', star digit,
    optional quote]
  severity := .major
  criterion := "2.4.3"
  problem := "Positive tabIndex"
  description := "Avoid positive tabIndex values"
  remedy := "Use tabIndex=\x7b0\x7d or \x7b-1\x7d, rely on natural DOM order"

def missingLang : Rule where
  name := "missing_lang"
  matcher := .guarded (tag "<html") (mentions ["lang="])
  severity := .critical
  criterion := "3.1.1"
  problem := "Missing page language"
  description := "HTML must have lang attribute"
  remedy := "Add lang=\"en\" or appropriate language code"

def unnecessaryAutofocus : Rule where
  name := "unnecessary_autofocus"
  matcher := .plain <| seq (literal "autoFocus") <|
    optional (concat [exactly '=', optional quote, literal "true", optional quote])
  severity := .minor
  criterion := "2.4.3"
  problem := "Unnecessary autoFocus"
  description := "Avoid autoFocus except for primary action"
  remedy := "Remove autoFocus unless critical for user flow"

def colorOnly : Rule where
  name := "color_only"
  matcher := .plain <| concat [literal "style=\x7b\x7b", star (noneOf ['}']), literal "color:",
    star blank, star (noneOf ['}']), literal "status", star blank, literal "===", star blank,
    quote, literal "error", quote]
  severity := .major
  criterion := "1.4.1"
  problem := "Color-only status indication"
  description := "Don't rely solely on color to convey information"
  remedy := "Add icon, text, or other visual indicator"

def headingComponentLevel : Rule where
  name := "heading_component_level"
  matcher := .guarded (tag "<Heading") (mentions ["as=", "level="])
  severity := .major
  criterion := "1.3.1"
  problem := "Heading without semantic level"
  description := "Heading component missing as or level prop"
  remedy := "Add as=\"h2\" or level=\x7b2\x7d prop"

def buttonAsLink : Rule where
  name := "button_as_link"
  matcher := .plain <| concat [literal "<Button", star (noneOf ['>']), literal "href="]
  severity := .minor
  criterion := "4.1.2"
  problem := "Button used as link"
  description := "Button with href should be Link component"
  remedy := "Use Link component for navigation"

def rules : List Rule :=
  [genericAlt, missingAlt, divOnclick, ambiguousLink, inputNoLabel, headingSkip, positiveTabindex,
   missingLang, unnecessaryAutofocus, colorOnly, headingComponentLevel, buttonAsLink]

def find? (name : String) : Option Rule := rules.find? fun rule => rule.name == name

def indexOf? (name : String) : Option Nat := rules.findIdx? fun rule => rule.name == name

end MarkupAudit.Catalogue
