import Stylebook.Guide

/-! # The built-in styles

An author and date style for books, journal articles, chapters and web pages.
-/

namespace Stylebook.Guide.BuiltIn

/-- Publication dates by year, with a stub, and access dates in full. -/
def dateDefaults : Mixin where
  name := "date-defaults"
  program := [
    .step (.set "datePublished" [.pattern "YYYY", .stub "n.d."]),
    .step (.set "dateAccessed" [.pattern "MMMM D, YYYY"])]

def define (id title : String) (description : Option String) (steps : List Step) : Definition :=
  ⟨id, title, description, [dateDefaults], .inherit 0 :: steps.map .step⟩

def italicValue : List TraitEdit := [.style .italics (.single .main)]

def firstNameFirst : List TraitEdit := [.pattern "F. Last"]

def book : Definition :=
  define "BOOK0001" "Book" (some "Authored or edited book; editors give way to authors.") [
    .trait "author " [],
    .trait "editor (Ed.) " firstNameFirst,
    .constrain (.atLeastOne ["author", "editor"]),
    .trait "(datePublished). " [],
    .trait "title" italicValue,
    .trait " (edition ed.)" [],
    .constrain (.optional "edition"),
    .text ". " [],
    .trait "place: " [],
    .constrain (.optional "place"),
    .trait "publisher." [],
    .upon ⟨"author", [.edit (.display "editor" false)]⟩]

def article : Definition :=
  define "ARTICLE0001" "Journal article" none [
    .trait "author " [],
    .trait "(datePublished). " [],
    .trait "title. " [],
    .trait "journal" italicValue,
    .trait ", volume" italicValue,
    .trait "(issue)" [],
    .constrain (.optional "issue"),
    .trait ", pages" [],
    .constrain (.optional "pages"),
    .text "." [],
    .trait " DOI: doi" [],
    .constrain (.optional "doi")]

/-- A single page is introduced by `p.` instead of `pp.`. -/
def chapter : Definition :=
  define "CHAPTER0001" "Book chapter" (some "Chapter in an edited book, with page range.") [
    .trait "author " [],
    .trait "(datePublished). " [],
    .trait "title. " [],
    .trait "In editor (Eds.), " firstNameFirst,
    .trait "containerTitle" italicValue,
    .trait " (pp. pages)" [],
    .constrain (.optional "pages"),
    .text ". " [],
    .trait "publisher." [],
    .upon ⟨"pages", [.unlessContains "pages" "-" [.edit (.configure "pages" [.before " (p. "])]]⟩]

def webPage : Definition :=
  define "WEB0001" "Web page" none [
    .trait "author " [],
    .constrain (.optional "author"),
    .trait "(datePublished). " [],
    .trait "title" italicValue,
    .trait ". Retrieved dateAccessed, from " [],
    .trait "url" []]

def config : GuideConfig := ⟨"styleguide", "Built-in styles", some "0.1.0"⟩

def guide (E : Engine) : Except GuideError Guide := do
  let g ← (Guide.new config).add E "Book" [book]
  let g ← g.add E "Journal Article" [article]
  let g ← g.add E "Book Chapter" [chapter]
  g.add E "Web Page" [webPage]

end Stylebook.Guide.BuiltIn
