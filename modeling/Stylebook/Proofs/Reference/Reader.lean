import Mathlib
import Stylebook.Proofs.Reference.Matcher
import Stylebook.Proofs.Table

/-! # Reading references

A reader may keep its matcher, and declare further keys between one reference and the next. What it
answers is decided by the keys that are known, in whatever order they were declared and whatever was
read before.
-/

namespace Stylebook

namespace KeyReader

variable {r : KeyReader} {E : Engine} {s s' : Schema} {requests requests' : List Request}
  {k : String}

theorem prepare_eq (r : KeyReader) : r.prepare.map (·.matcher) = r.keys.matcher? := by
  unfold prepare
  split
  · next m hm =>
    rcases r.current with h | h
    · cases hm.symm.trans h
    · simp [Except.map, h]
  · split
    · next h => simp [Except.map, h]
    · next h => simp [Except.map, h]

theorem keys_of_prepare {r' : KeyReader} (h : r.prepare = .ok r') : r'.keys = r.keys := by
  unfold prepare at h
  split at h
  · cases h
    rfl
  · split at h <;> cases h
    rfl

/-- Keeping a matcher makes no difference to what is answered. -/
theorem parse_fst (r : KeyReader) (text : String) : (r.parse text).1 = r.keys.parse text := by
  rw [KeySet.parse, ← prepare_eq, parse]
  cases r.prepare <;> rfl

theorem keys_parse (r : KeyReader) (text : String) : (r.parse text).2.keys = r.keys := by
  rw [parse]
  cases h : r.prepare with
  | error e => rfl
  | ok r' => exact keys_of_prepare h

/-- The field that a request declares. -/
def Request.field? : Request → Option (String × FieldKind)
  | declare k kind => some (k, kind)
  | parse _ => none

theorem keys_next (r : KeyReader) (q : Request) : (r.next q).keys =
    { r.keys with schema := r.keys.schema.insertAll q.field?.toList } := by
  cases q with
  | declare k kind => rfl
  | parse text => exact r.keys_parse text

/-- Requests declare their fields, and do nothing else to the keys. -/
theorem keys_run (r : KeyReader) (requests : List Request) : (r.run requests).keys =
    { r.keys with schema := r.keys.schema.insertAll (requests.filterMap Request.field?) } := by
  induction requests generalizing r with
  | nil => rfl
  | cons q requests ih =>
    have hf : (q :: requests).filterMap Request.field? =
        q.field?.toList ++ requests.filterMap Request.field? := by
      cases hq : q.field? <;> simp [hq]
    rw [hf, Table.insertAll_append, run, List.foldl_cons, ← run, ih, keys_next]

/-- A key is known that the schema has or that was declared since. -/
def Known (s : Schema) (requests : List Request) (k : String) : Prop :=
  k ∈ s.keys ∨ ∃ kind, .declare k kind ∈ requests

theorem known_iff : k ∈ ((ofSchema E s).run requests).keys.schema.keys ↔ Known s requests k := by
  have hd : (∃ kind, (k, kind) ∈ requests.filterMap Request.field?) ↔
      ∃ kind, .declare k kind ∈ requests := by
    refine exists_congr fun kind => ?_
    rw [List.mem_filterMap]
    constructor
    · rintro ⟨q, hq, hf⟩
      cases q <;> cases hf
      exact hq
    · exact fun hq => ⟨_, hq, rfl⟩
  rw [keys_run, Table.mem_keys_insertAll, hd, or_comm]
  rfl

theorem parse_congr (h : ∀ k, Known s requests k ↔ Known s' requests' k) (text : String) :
    (((ofSchema E s).run requests).parse text).1 =
      (((ofSchema E s').run requests').parse text).1 := by
  have hk : ∀ k, k ∈ ((ofSchema E s).run requests).keys.schema.keys ↔
      k ∈ ((ofSchema E s').run requests').keys.schema.keys := by simpa only [known_iff] using h
  have hm : ((ofSchema E s).run requests).keys.matcher? =
      ((ofSchema E s').run requests').keys.matcher? :=
    KeySet.matcher?_congr (by simp only [keys_run]; rfl) (by simp only [keys_run]; rfl) hk
  rw [parse_fst, parse_fst, KeySet.parse, KeySet.parse, hm]

/-- After any requests, a reader whose matcher can be built finds the longest known key at the
leftmost place where a known key stands. In what order keys were declared makes no difference, nor
does what was read before. -/
theorem parse_run {m : Option Matcher} (E : Engine) (s : Schema) (requests : List Request)
    (h : ((ofSchema E s).run requests).keys.matcher? = .ok m) (text : String) :
    (∀ r, (((ofSchema E s).run requests).parse text).1 = .ok (some r) ↔
      r.LeftmostLongest (Known s requests) text) ∧
    ((((ofSchema E s).run requests).parse text).1 = .ok none ↔
      ∀ p k q, Known s requests k → k ≠ "" → p ++ k ++ q ≠ text) ∧
    ∀ s' requests', (∀ k, Known s requests k ↔ Known s' requests' k) →
      (((ofSchema E s).run requests).parse text).1 =
        (((ofSchema E s').run requests').parse text).1 := by
  have ha : (((ofSchema E s).run requests).parse text).1 =
      .ok (((ofSchema E s).run requests).keys.schema.parse? text) := by
    rw [parse_fst, KeySet.parse_of_searchable ⟨m, h⟩]
  refine ⟨fun r => ?_, ?_, fun _ _ hk => parse_congr hk text⟩
  · simp only [ha, Except.ok.injEq, Schema.parse?_eq_some_iff, known_iff]
  · simp only [ha, Except.ok.injEq, Schema.parse?_eq_none_iff, known_iff]

/-- Keys that begin or overlap one another, one of them empty. -/
def overlapping : Schema :=
  Table.ofList [("", .text), ("a", .text), ("a.b", .text), ("é(", .text), ("b.c", .date)]

theorem parse_run_overlapping :
    ((ofSchema .usual overlapping).run [.parse "xa.b.c", .declare "a.b.c" .number]).keys.matcher? =
        .ok (some ⟨["a.b.c", "a.b", "b.c", "é(", "a"]⟩) ∧
      (((ofSchema .usual overlapping).run [.parse "xa.b.c"]).parse "xa.b.c").1 =
        .ok (some ⟨"x", "a.b", ".c"⟩) ∧
      Reference.LeftmostLongest
        (Known overlapping [.parse "xa.b.c", .declare "a.b.c" .number]) "xa.b.c"
        ⟨"x", "a.b.c", ""⟩ := by
  have h : ((ofSchema .usual overlapping).run
      [.parse "xa.b.c", .declare "a.b.c" .number]).keys.matcher? =
      .ok (some ⟨["a.b.c", "a.b", "b.c", "é(", "a"]⟩) := by
    rw [keys_run]
    cbv
  have hb : (((ofSchema .usual overlapping).run [.parse "xa.b.c"]).parse "xa.b.c").1 =
      .ok (some ⟨"x", "a.b", ".c"⟩) := by
    rw [parse_fst, keys_run]
    cbv
  have ha : (((ofSchema .usual overlapping).run
      [.parse "xa.b.c", .declare "a.b.c" .number]).parse "xa.b.c").1 =
      .ok (some ⟨"x", "a.b.c", ""⟩) := by
    rw [parse_fst, keys_run]
    cbv
  exact ⟨h, hb, ((parse_run .usual overlapping _ h "xa.b.c").1 _).mp ha⟩

end KeyReader

end Stylebook
