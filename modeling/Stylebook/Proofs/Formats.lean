import Mathlib
import Stylebook.Rendering

/-! # The two formats

Plain text is the concatenation of the chunks of a render, and HTML the same chunks with markers
around those that have a style. Where the data has no marker of its own, the markers can be told from
the text: they are nested, and without them plain text is left.
-/

namespace Stylebook

def Segment.all : List Segment := [.before, .main, .after]

def Fragment.segment (f : Fragment) : Segment → String
  | .before => f.before
  | .main => f.value
  | .after => f.after

namespace Item

/-- What an item is written as: the segments of a trait that are not empty, each with the styles that
its markup has there, or the content of a text block without any style. -/
def pieces (r : Record) : Item → List Chunk
  | trait t => (t.resolve? r).elim [] fun f =>
    (Segment.all.filter fun g => f.segment g ≠ "").map fun g =>
      ⟨t.markup.bold.contains (.single g), t.markup.italics.contains (.single g), f.segment g⟩
  | text t => [⟨false, false, t.content⟩]

theorem chunks_eq_pieces (r : Record) (i : Item) : i.chunks r = i.pieces r := by
  cases i with
  | text t => rfl
  | trait t =>
    rw [chunks, pieces, Trait.chunks?]
    cases t.resolve? r with
    | none => rfl
    | some f =>
      simp only [Option.map_some, Option.getD_some, Option.elim_some, Markup.compose,
        Markup.chunk?, ← Segments.has_eq_contains]
      by_cases hb : f.before = "" <;> by_cases hm : f.value = "" <;> by_cases ha : f.after = "" <;>
        simp [List.reduceOption, Segment.all, Fragment.segment, hb, hm, ha]

end Item

/-- A place where a style begins or ends. -/
structure Marker where
  style : TextStyle
  opens : Bool
deriving DecidableEq, Repr

namespace Marker

def text : Marker → String
  | ⟨.bold, true⟩ => "<b>"
  | ⟨.bold, false⟩ => "</b>"
  | ⟨.italics, true⟩ => "<i>"
  | ⟨.italics, false⟩ => "</i>"

/-- A text taken apart from left to right. -/
def scan : List Char → List (Marker ⊕ Char)
  | '<' :: 'b' :: '>' :: cs => .inl ⟨.bold, true⟩ :: scan cs
  | '<' :: '/' :: 'b' :: '>' :: cs => .inl ⟨.bold, false⟩ :: scan cs
  | '<' :: 'i' :: '>' :: cs => .inl ⟨.italics, true⟩ :: scan cs
  | '<' :: '/' :: 'i' :: '>' :: cs => .inl ⟨.italics, false⟩ :: scan cs
  | c :: cs => .inr c :: scan cs
  | [] => []

/-- The text without its markers. -/
def strip (s : String) : String := String.ofList ((scan s.toList).filterMap Sum.getRight?)

/-- The markers of a text. -/
def all (s : String) : List Marker := (scan s.toList).filterMap Sum.getLeft?

/-- Every marker that ends a style ends the one begun last, and bold begins where no style has begun.
The list names the styles that have begun, the last one first. -/
inductive Nested : List TextStyle → List Marker → Prop

  | nil : Nested [] []

  | bold {ms : List Marker} : Nested [.bold] ms → Nested [] (⟨.bold, true⟩ :: ms)

  | italics {open_ : List TextStyle} {ms : List Marker} :
      .italics ∉ open_ → Nested (.italics :: open_) ms → Nested open_ (⟨.italics, true⟩ :: ms)

  | close {style : TextStyle} {open_ : List TextStyle} {ms : List Marker} :
      Nested open_ ms → Nested (style :: open_) (⟨style, false⟩ :: ms)

theorem scan_cons {c : Char} (h : c ≠ '<') (cs : List Char) : scan (c :: cs) = .inr c :: scan cs := by
  rw [scan] <;> simp [h]

theorem scan_append {cs : List Char} (h : '<' ∉ cs) (ds : List Char) :
    scan (cs ++ ds) = cs.map .inr ++ scan ds := by
  induction cs with
  | nil => rfl
  | cons c cs ih =>
    obtain ⟨hc, hcs⟩ := not_or.mp (mt List.mem_cons.mpr h)
    rw [List.cons_append, scan_cons (Ne.symm hc), ih hcs]
    rfl

theorem scan_text (m : Marker) (cs : List Char) : scan (m.text.toList ++ cs) = .inl m :: scan cs := by
  obtain ⟨style, opens⟩ := m
  cases style <;> cases opens <;> rfl

theorem scan_texts (ms : List Marker) (cs : List Char) :
    scan ((String.join (ms.map text)).toList ++ cs) = ms.map .inl ++ scan cs := by
  induction ms with
  | nil => rfl
  | cons m ms ih =>
    rw [List.map_cons, String.join_cons, String.toList_append, List.append_assoc, scan_text, ih]
    rfl

end Marker

namespace Chunk

/-- The styles of a chunk, the outer one first. -/
def styles (c : Chunk) : List TextStyle :=
  (if c.bold then [.bold] else []) ++ if c.italics then [.italics] else []

/-- The markers before the text of a chunk. -/
def opening (c : Chunk) : List Marker := c.styles.map (⟨·, true⟩)

/-- The markers after the text of a chunk, in the opposite order. -/
def closing (c : Chunk) : List Marker := c.styles.reverse.map (⟨·, false⟩)

/-- The text of a chunk in the markers of its styles, italics inside bold. -/
def marked (c : Chunk) : String :=
  (if c.bold then "<b>" else "") ++ (if c.italics then "<i>" else "") ++ c.text ++
    (if c.italics then "</i>" else "") ++ (if c.bold then "</b>" else "")

/-- A chunk that has a style has a text. -/
def Solid (c : Chunk) : Prop := c.bold = true ∨ c.italics = true → c.text ≠ ""

theorem write_plain (c : Chunk) : c.write .plain = c.text := by
  unfold write
  split <;> split <;> rfl

theorem wrap_of_ne {s : String} (h : s ≠ "") (tag : String) :
    Format.wrap tag s = "<" ++ tag ++ ">" ++ s ++ ("</" ++ tag ++ ">") := by
  rw [Format.wrap, if_neg (by simpa using h)]
  simp only [String.append_assoc]

theorem write_html {c : Chunk} (h : c.Solid) : c.write .html = c.marked := by
  obtain ⟨bold, italics, text⟩ := c
  cases bold <;> cases italics
  · simp [write, marked]
  · have ht : text ≠ "" := h (by simp)
    simp [write, marked, Format.emph, wrap_of_ne ht]
  · have ht : text ≠ "" := h (by simp)
    simp [write, marked, Format.strong, wrap_of_ne ht]
  · have ht : text ≠ "" := h (by simp)
    have hi : Format.wrap "i" text = "<i>" ++ text ++ "</i>" := wrap_of_ne ht "i"
    calc Format.wrap "b" (Format.wrap "i" text)
      _ = "<b>" ++ ("<i>" ++ text ++ "</i>") ++ "</b>" := by
        rw [hi]
        exact wrap_of_ne (by simp) "b"
      _ = marked ⟨true, true, text⟩ := by simp [marked, String.append_assoc, -String.reduceAppend]

theorem marked_eq (c : Chunk) : c.marked = String.join (c.opening.map Marker.text) ++ c.text ++
    String.join (c.closing.map Marker.text) := by
  obtain ⟨bold, italics, text⟩ := c
  cases bold <;> cases italics <;>
    simp [marked, opening, closing, styles, Marker.text, String.append_assoc]

/-- What a chunk is taken apart to. -/
def scanned (c : Chunk) : List (Marker ⊕ Char) :=
  c.opening.map .inl ++ (c.text.toList.map .inr ++ c.closing.map .inl)

theorem scan_marked {c : Chunk} (h : '<' ∉ c.text.toList) (cs : List Char) :
    Marker.scan (c.marked.toList ++ cs) = c.scanned ++ Marker.scan cs := by
  rw [marked_eq, String.toList_append, String.toList_append, List.append_assoc, List.append_assoc,
    Marker.scan_texts, Marker.scan_append h, Marker.scan_texts, scanned]
  simp only [List.append_assoc]

theorem scan_join {cs : List Chunk} (h : ∀ c ∈ cs, '<' ∉ c.text.toList) :
    Marker.scan (String.join (cs.map marked)).toList = cs.flatMap scanned := by
  induction cs with
  | nil => rfl
  | cons c cs ih =>
    obtain ⟨hc, hcs⟩ := List.forall_mem_cons.mp h
    rw [List.map_cons, String.join_cons, String.toList_append, scan_marked hc, ih hcs]
    rfl

theorem getRight?_scanned (c : Chunk) : c.scanned.filterMap Sum.getRight? = c.text.toList := by
  simp [scanned, List.filterMap_append, List.filterMap_map, Function.comp_def]

theorem getLeft?_scanned (c : Chunk) :
    c.scanned.filterMap Sum.getLeft? = c.opening ++ c.closing := by
  simp [scanned, List.filterMap_append, List.filterMap_map, Function.comp_def]

theorem strip_join {cs : List Chunk} (h : ∀ c ∈ cs, '<' ∉ c.text.toList) :
    Marker.strip (String.join (cs.map marked)) = String.join (cs.map Chunk.text) := by
  rw [Marker.strip, scan_join h, String.join_eq, List.filterMap_flatMap]
  simp only [getRight?_scanned, List.flatMap_def, List.map_map]
  rfl

/-- The markers of a chunk leave open what was open before. -/
theorem nested_append (c : Chunk) {ms : List Marker} (h : Marker.Nested [] ms) :
    Marker.Nested [] (c.opening ++ c.closing ++ ms) := by
  obtain ⟨bold, italics, text⟩ := c
  cases bold <;> cases italics
  · exact h
  · exact .italics (by simp) (.close h)
  · exact .bold (.close h)
  · exact .bold (.italics (by simp) (.close (.close h)))

theorem nested_join {cs : List Chunk} (h : ∀ c ∈ cs, '<' ∉ c.text.toList) :
    Marker.Nested [] (Marker.all (String.join (cs.map marked))) := by
  rw [Marker.all, scan_join h, List.filterMap_flatMap]
  simp only [getLeft?_scanned]
  clear h
  induction cs with
  | nil => exact .nil
  | cons c cs ih => exact c.nested_append ih

end Chunk

theorem Item.solid_of_mem_pieces {r : Record} {i : Item} {c : Chunk} (h : c ∈ i.pieces r) :
    c.Solid := by
  cases i with
  | text t =>
    obtain rfl := List.mem_singleton.mp h
    simp [Chunk.Solid]
  | trait t =>
    rw [pieces] at h
    cases hr : t.resolve? r with
    | none => simp [hr] at h
    | some f =>
      rw [hr, Option.elim_some] at h
      obtain ⟨g, hg, rfl⟩ := List.mem_map.mp h
      exact fun _ => of_decide_eq_true (List.mem_filter.mp hg).2

/-- The pieces that the visible items of a style are written as, once the triggers have changed them. -/
def Style.pieces (st : Style) (r : Record) : List Chunk :=
  ((st.itemsFor r).filter (·.visibility.isVisible)).flatMap (Item.pieces r)

theorem Style.chunks_eq_pieces (st : Style) (r : Record) : st.chunks r = st.pieces r := by
  rw [chunks, pieces]
  exact List.flatMap_congr fun i _ => i.chunks_eq_pieces r

/-- A text with a style put on. -/
def Format.put (f : Format) : TextStyle → String → String
  | .bold => f.strong
  | .italics => f.emph

/-- How a format writes an item: each segment of a trait that is not empty with the styles that cover
it, the inner one put on first. -/
def Item.write (f : Format) (r : Record) : Item → String
  | trait t => (t.resolve? r).elim "" fun fr => String.join <|
    (Segment.all.filter fun g => fr.segment g ≠ "").map fun g =>
      (t.markup.stylesFor (.single g)).foldr f.put (fr.segment g)
  | text t => t.content

theorem Markup.foldr_stylesFor (m : Markup) (g : Segment) (f : Format) (s : String) :
    (m.stylesFor (.single g)).foldr f.put s =
      Chunk.write f ⟨m.bold.contains (.single g), m.italics.contains (.single g), s⟩ := by
  simp only [stylesFor, List.filter_cons, segments, Chunk.write]
  cases m.bold.contains (.single g) <;> cases m.italics.contains (.single g) <;> rfl

theorem Item.writeAll_pieces (f : Format) (r : Record) (i : Item) :
    Chunk.writeAll f (i.pieces r) = i.write f r := by
  cases i with
  | text t => simp [Chunk.writeAll, pieces, write, Chunk.write]
  | trait t =>
    rw [pieces, write]
    cases t.resolve? r with
    | none => rfl
    | some fr =>
      simp only [Option.elim_some, Chunk.writeAll, List.map_map, Function.comp_def,
        Markup.foldr_stylesFor]

namespace Style

variable {st : Style} {r : Record}

theorem solid_of_mem_pieces {c : Chunk} (h : c ∈ st.pieces r) : c.Solid := by
  obtain ⟨i, -, hc⟩ := List.mem_flatMap.mp h
  exact Item.solid_of_mem_pieces hc

/-- A record without problems is written piece by piece. -/
theorem text_render (h : st.problems r = []) (f : Format) :
    (st.render f r).text = Chunk.writeAll f (st.pieces r) := by
  simp only [render, h, List.isEmpty_nil, if_true, chunks_eq_pieces]

theorem text_render_plain (h : st.problems r = []) :
    (st.render .plain r).text = String.join ((st.pieces r).map Chunk.text) := by
  rw [text_render h, Chunk.writeAll]
  exact congrArg String.join (List.map_congr_left fun c _ => c.write_plain)

theorem text_render_html (h : st.problems r = []) :
    (st.render .html r).text = String.join ((st.pieces r).map Chunk.marked) := by
  rw [text_render h, Chunk.writeAll]
  exact congrArg String.join (List.map_congr_left fun c hc =>
    Chunk.write_html (solid_of_mem_pieces hc))

theorem writeAll_pieces (f : Format) (st : Style) (r : Record) :
    Chunk.writeAll f (st.pieces r) =
      String.join (((st.itemsFor r).filter (·.visibility.isVisible)).map (Item.write f r)) := by
  rw [pieces]
  induction (st.itemsFor r).filter (·.visibility.isVisible) with
  | nil => rfl
  | cons i items ih =>
    rw [List.flatMap_cons, Chunk.writeAll, List.map_append, String.join_append, ← Chunk.writeAll,
      ← Chunk.writeAll, ih, Item.writeAll_pieces, List.map_cons, String.join_cons]

end Style

/-- Both formats report the same problems. Where there are none, both write the same pieces, one item
and one segment after the other: plain text as they are, and HTML with markers around those that have
a style, which is never on an empty piece. If no piece has a `<`, the markers of HTML are nested, bold
outside italics, and what is left without them is plain text. -/
theorem render_formats (st : Style) (r : Record) :
    (st.render .html r).problems = (st.render .plain r).problems ∧
    ((st.render .html r).problems = [] →
      (∀ f, (st.render f r).text =
        String.join (((st.itemsFor r).filter (·.visibility.isVisible)).map (Item.write f r))) ∧
      (st.render .plain r).text = String.join ((st.pieces r).map Chunk.text) ∧
      (st.render .html r).text = String.join ((st.pieces r).map Chunk.marked) ∧
      (∀ c ∈ st.pieces r, c.bold = true ∨ c.italics = true → c.text ≠ "") ∧
      ((∀ c ∈ st.pieces r, '<' ∉ c.text.toList) →
        Marker.strip (st.render .html r).text = (st.render .plain r).text ∧
        Marker.Nested [] (Marker.all (st.render .html r).text))) := by
  refine ⟨rfl, fun h => ?_⟩
  have hp : st.problems r = [] := h
  refine ⟨fun f => ?_, Style.text_render_plain hp, Style.text_render_html hp,
    fun c hc => Style.solid_of_mem_pieces hc, fun hc => ?_⟩
  · rw [Style.text_render hp, Style.writeAll_pieces]
  · rw [Style.text_render_html hp, Style.text_render_plain hp]
    exact ⟨Chunk.strip_join hc, Chunk.nested_join hc⟩

/-- A title in bold italics with an empty value after it, and a trigger that changes its markup. -/
def Style.poster : Style where
  id := "poster"
  title := "Poster"
  items := [.trait ⟨"title", "«", "»", .text, .normal, none, ⟨.all, .single .main⟩, 0⟩,
    .text ⟨"text", " / ", .normal, 1⟩,
    .trait ⟨"place", "", "", .text, .normal, none, ⟨.none, .all⟩, 2⟩,
    .trait ⟨"publisher", "in ", ".", .text, .normal, some "b>", ⟨.single .main, .none⟩, 3⟩]
  rules := [.required "title"]
  triggers := [⟨"place", [.edit (.configure "title" [.style .bold (.single .main)])]⟩]
  inherited := []

theorem render_formats_poster :
    let r := (Record.empty.set "title" (.text "Foo")).set "place" (.text "")
    (Style.poster.render .html r).text = "«<b><i>Foo</i></b>» / in <b>b></b>." ∧
      Marker.strip (Style.poster.render .html r).text = "«Foo» / in b>." ∧
      Marker.Nested [] (Marker.all (Style.poster.render .html r).text) := by
  intro r
  have hp : (Style.poster.render .html r).problems = [] := by cbv
  have hs : Style.poster.pieces r = [⟨false, false, "«"⟩, ⟨true, true, "Foo"⟩, ⟨false, false, "»"⟩,
      ⟨false, false, " / "⟩, ⟨false, false, "in "⟩, ⟨true, false, "b>"⟩, ⟨false, false, "."⟩] := by cbv
  obtain ⟨-, hplain, hhtml, -, hc⟩ := (render_formats .poster r).2 hp
  obtain ⟨hstrip, hnested⟩ := hc (by rw [hs]; decide)
  exact ⟨hhtml.trans (by rw [hs]; decide), hstrip.trans (hplain.trans (by rw [hs]; decide)), hnested⟩

end Stylebook
