import DBStream.ForStd.Option
import DBStream.Spec.SqlReturns

/-!
# The parse trees that the loader accepts

A loaded parse tree is finite, and its words are those that `create` makes.  So a match of a loaded
tree returns if and only if none of its steps goes wrong; the loader rules none of them out.
-/

namespace DBStream.Native.SQL_PARSER

variable {P : Type} {env : LoaderEnv P}

/-- The words that the model leaves open end in the text when they match. -/
def LoaderEnv.Forward (env : LoaderEnv P) : Prop :=
  ∀ t p values rest, env.run t p = some (values, some rest) → rest <:+ p

/-! ## Words -/

theorem wordType_forward (henv : env.Forward) {str : List UInt8} {t : SingleWordType}
    (h : wordType env str = some t) :
    ∀ run, t = .S_OTHER run → ∀ p values rest, run p = some (values, some rest) → rest <:+ p := by
  rintro run rfl p values rest hrun
  unfold wordType at h
  simp only at h
  split_ifs at h
  · simp at h
  · simp at h
  · simp at h
  · simp only [Option.some.injEq, SingleWordType.S_OTHER.injEq] at h
    exact henv _ p values rest (h ▸ hrun)
  · simp only [Option.some.injEq, SingleWordType.S_OTHER.injEq] at h
    exact henv _ p values rest (h ▸ hrun)
  · simp only [Option.map_eq_some_iff, SingleWordType.S_OTHER.injEq] at h
    obtain ⟨w, -, hw⟩ := h
    exact henv _ p values rest (hw ▸ hrun)

theorem create_forward (henv : env.Forward) {optional : Bool} {str : List UInt8}
    {w : SQLSingleWord P} (h : create env optional str = some w) : w.Forward := by
  unfold create at h
  simp only [Option.map_eq_some_iff] at h
  obtain ⟨t, ht, rfl⟩ := h
  exact wordType_forward henv ht

private theorem loadSingleWordFromJson_forward (henv : env.Forward) {json : JsonObject}
    {w : SQLSingleWord P} (h : loadSingleWordFromJson env json = some w) : w.Forward := by
  unfold loadSingleWordFromJson at h
  simp only [Option.bind_eq_bind, Option.bind_eq_some_iff] at h
  obtain ⟨optional, -, func, -, h⟩ := h
  split at h
  · rename_i str hstr
    simp only [Option.map_eq_some_iff] at h
    obtain ⟨w', hw', rfl⟩ := h
    have hforward : w'.Forward := create_forward henv hw'
    exact hforward
  · simp at h

private theorem getLoopCondition_forward (henv : env.Forward) {value : JsonValue}
    {c : Option (SQLSingleWord P)} (h : getLoopCondition env value = some c) :
    ∀ w, c = some w → w.Forward := by
  rintro w rfl
  unfold getLoopCondition at h
  split at h
  · split_ifs at h
    · simp at h
    · simp only [Option.map_eq_some_iff, Option.some.injEq, exists_eq_right] at h
      exact create_forward henv h
  · simp at h

private theorem getLoop_forward (henv : env.Forward) {json : JsonObject}
    {x : Bool × Option (SQLSingleWord P)} (h : getLoop env json = some x) :
    ∀ w, x.2 = some w → w.Forward := by
  unfold getLoop at h
  split at h
  · rw [← Option.some.inj h]
    simp
  · simp only [Option.map_eq_some_iff] at h
    obtain ⟨c, hc, rfl⟩ := h
    exact getLoopCondition_forward henv hc

/-! ## Arrays -/

/-- The single words of an array stay in the text. -/
structure SQLWordArray.Sound (a : SQLWordArray P) : Prop where
  words : ∀ w, .single w ∈ a.m_words → w.Forward
  condition : ∀ c, a.m_loopCondition = some c → c.Forward

def Loaded.Sound (l : Loaded P) : Prop := ∀ a ∈ l.arrays, a.Sound

/-- A child that is a single word stays in the text. -/
def SQLWord.Sound (w : SQLWord P) : Prop := ∀ s, w = .single s → s.Forward

theorem emptyArray_sound : (emptyArray : SQLWordArray P).Sound :=
  ⟨by simp [emptyArray], by simp [emptyArray]⟩

theorem newArray_keeps {a : SQLWordArray P} (ha : a.Sound) :
    (newArray a).Keeps Loaded.Sound fun _ => True := by
  intro l place l' hrun hl
  obtain ⟨-, rfl⟩ := hrun
  refine ⟨?_, trivial⟩
  intro b hb
  obtain hb | hb := List.mem_append.mp hb
  · exact hl b hb
  · rw [List.mem_singleton.mp hb]
    exact ha

theorem forwardDeclare_keeps (values : List JsonValue) :
    (forwardDeclare (P := P) values).Keeps Loaded.Sound fun _ => True := by
  induction values with
  | nil => exact .pure trivial
  | cons value rest ih =>
    cases value with
    | J_STRING name =>
      refine .bind .get fun l _ => ?_
      by_cases hnone : (l.m_parseTree.lookup name).isNone
      · rw [if_pos hnone]
        exact .bind (newArray_keeps emptyArray_sound) fun _ _ =>
          .bind (.modify fun _ hl => hl) fun _ _ => ih
      · rw [if_neg hnone]
        exact ih
    | J_NUM _ => exact .failure
    | J_OBJECT _ => exact .failure
    | J_ARRAY _ => exact .failure
    | J_BOOL _ => exact .failure

theorem arrayToFill_keeps (name : List UInt8) (top : Option Nat) {a : SQLWordArray P}
    (ha : a.Sound) : (arrayToFill name top a).Keeps Loaded.Sound fun _ => True := by
  refine .bind .get fun l hl => ?_
  split
  · rename_i place _
    split_ifs
    · refine .bind (.set ?_) fun _ _ => .pure trivial
      intro b hb
      obtain hb | rfl := List.mem_or_eq_of_mem_set hb
      · exact hl b hb
      · exact ha
    · exact .failure
  · exact newArray_keeps ha

theorem append_keeps (place : Nat) {w : SQLWord P} (hw : w.Sound) :
    (append place w).Keeps Loaded.Sound fun _ => True := by
  refine .modify fun l hl => ?_
  intro b hb
  obtain ⟨i, hi, rfl⟩ := List.getElem_of_mem hb
  rw [List.getElem_modify]
  have ha := hl _ (List.getElem_mem (by simpa using hi))
  split_ifs
  · refine ⟨?_, ha.condition⟩
    intro s hs
    obtain hs | hs := List.mem_append.mp hs
    · exact ha.words s hs
    · exact hw s (List.mem_singleton.mp hs).symm
  · exact ha

theorem getInclude_keeps (value topName : List UInt8) (top : Nat) :
    (getInclude (P := P) value topName top).Keeps Loaded.Sound fun _ => True := by
  unfold getInclude
  by_cases htop : value = topName
  · rw [if_pos htop]
    exact .pure trivial
  · rw [if_neg htop]
    refine .bind .get fun l hl => ?_
    split
    · exact .failure
    · exact .bind (.set hl) fun _ _ => .pure trivial

theorem declareNames_keeps (json : JsonObject) :
    (declareNames (P := P) json).Keeps Loaded.Sound fun _ => True := by
  unfold declareNames
  split
  · exact .pure trivial
  · exact forwardDeclare_keeps _
  · exact .failure

/-! ## Loading -/

variable {loadArray : JsonObject → Load P Nat}

theorem loadChild_keeps (henv : env.Forward)
    (harray : ∀ json, (loadArray json).Keeps Loaded.Sound fun _ => True) (name : List UInt8)
    (top : Nat) (child : JsonValue) :
    (loadChild env loadArray name top child).Keeps Loaded.Sound SQLWord.Sound := by
  have hplace (place : Nat) : (SQLWord.array place : SQLWord P).Sound := by simp [SQLWord.Sound]
  cases child with
  | J_OBJECT json =>
    unfold loadChild
    dsimp only
    split_ifs
    · refine .bind (.lift fun w hw => loadSingleWordFromJson_forward henv hw) fun w hw => .pure ?_
      rintro s ⟨rfl⟩
      exact hw
    · exact .bind (harray json) fun place _ => .pure (hplace place)
    · split
      · exact .bind (getInclude_keeps _ name top) fun place _ => .pure (hplace place)
      · exact .failure
  | J_STRING _ => exact .failure
  | J_NUM _ => exact .failure
  | J_ARRAY _ => exact .failure
  | J_BOOL _ => exact .failure

theorem loadChildren_keeps (henv : env.Forward)
    (harray : ∀ json, (loadArray json).Keeps Loaded.Sound fun _ => True) (name : List UInt8)
    (top place : Nat) (children : List JsonValue) :
    (loadChildren env loadArray name top place children).Keeps Loaded.Sound fun _ => True := by
  induction children with
  | nil => exact .pure trivial
  | cons child rest ih =>
    exact .bind (loadChild_keeps henv harray name top child) fun w hw =>
      .bind (append_keeps place hw) fun _ _ => ih

theorem loadWordArrayFromJson_keeps (henv : env.Forward) (fuel : Nat) (json : JsonObject)
    (name : List UInt8) (top : Option Nat) :
    (loadWordArrayFromJson env fuel json name top).Keeps Loaded.Sound fun _ => True := by
  induction fuel generalizing json top with
  | zero => exact .failure
  | succ fuel ih =>
    refine .bind (.lift fun _ _ => trivial) fun optional _ => ?_
    refine .bind (.lift fun _ _ => trivial) fun OR _ => ?_
    refine .bind (declareNames_keeps json) fun _ _ => ?_
    refine .bind (.lift fun _ hloop => getLoop_forward henv hloop) fun x hcond => ?_
    obtain ⟨loop, loopCondition⟩ := x
    dsimp only at hcond ⊢
    split
    · have ha : (⟨optional, [], OR, loop, loopCondition⟩ : SQLWordArray P).Sound :=
        ⟨by simp, hcond⟩
      refine .bind (arrayToFill_keeps name top ha) fun array _ => ?_
      exact .bind (loadChildren_keeps henv (fun json => ih json _) name _ array _) fun _ _ =>
        .pure trivial
    · exact .failure

theorem loadSentence_keeps (henv : env.Forward) (fuel : Nat) (key : List UInt8)
    (value : JsonValue) :
    (loadSentence env fuel key value).Keeps Loaded.Sound fun _ => True := by
  cases value with
  | J_OBJECT sentence =>
    refine .bind (.lift fun _ _ => trivial) fun _ _ => ?_
    refine .bind (.lift fun _ _ => trivial) fun head _ => ?_
    exact .bind (loadWordArrayFromJson_keeps henv fuel sentence key none) fun s _ =>
      .modify fun _ hl => hl
  | J_STRING _ => exact .failure
  | J_NUM _ => exact .failure
  | J_ARRAY _ => exact .failure
  | J_BOOL _ => exact .failure

theorem loadSentences_keeps (henv : env.Forward) (fuel : Nat)
    (sentences : List (List UInt8 × JsonValue)) :
    (loadSentences env fuel sentences).Keeps Loaded.Sound fun _ => True := by
  induction sentences with
  | nil => exact .pure trivial
  | cons sentence rest ih =>
    obtain ⟨key, value⟩ := sentence
    exact .bind (loadSentence_keeps henv fuel key value) fun _ _ => ih

theorem LoadParseTree_sound (henv : env.Forward) {fuel : Nat} {config : List JsonObject}
    {l : Loaded P} (h : LoadParseTree env fuel config = some l) : l.Sound := by
  unfold LoadParseTree at h
  simp only [Option.bind_eq_bind, Option.bind_eq_some_iff] at h
  obtain ⟨⟨_, l'⟩, hload, hret⟩ := h
  split_ifs at hret
  obtain rfl := Option.some.inj hret
  exact (loadSentences_keeps henv fuel config.flatten _ _ _ hload (by simp [Loaded.Sound])).1

/-! ## Loaded parse trees -/

theorem exists_place_bound (words : List (SQLWord P)) :
    ∃ n, ∀ place, .array place ∈ words → place < n := by
  induction words with
  | nil => exact ⟨0, by simp⟩
  | cons w words ih =>
    obtain ⟨n, hn⟩ := ih
    cases w with
    | single w => exact ⟨n, by simpa using hn⟩
    | array p =>
      refine ⟨max n (p + 1), ?_⟩
      intro place hplace
      obtain heq | hmem := List.mem_cons.mp hplace
      · rw [SQLWord.array.inj heq]
        omega
      · have := hn place hmem
        omega

theorem Loaded.Sound.finite {l : Loaded P} (h : l.Sound) (place : Nat) :
    ∃ n, place < n ∧ Finite l.tree n := by
  obtain ⟨n, hn⟩ := exists_place_bound (l.arrays.flatMap SQLWordArray.m_words)
  -- an array is one of those loaded, or has no words
  have htree (p : Nat) : l.tree p ∈ l.arrays ∨ l.tree p = emptyArray := by
    unfold Loaded.tree
    rw [List.getD_eq_getElem?_getD]
    cases hp : l.arrays[p]? with
    | none => exact .inr rfl
    | some a => exact .inl (List.mem_of_getElem? hp)
  have hsound (p : Nat) : (l.tree p).Sound := by
    obtain hmem | hempty := htree p
    · exact h _ hmem
    · rw [hempty]
      exact emptyArray_sound
  refine ⟨max n (place + 1), by omega, ?_, fun p c hc => (hsound p).condition c hc⟩
  intro p s hs
  cases s with
  | single w => exact (hsound p).words w hs
  | array q =>
    have hmem : .array q ∈ l.arrays.flatMap SQLWordArray.m_words := by
      obtain hmem | hempty := htree p
      · exact List.mem_flatMap.mpr ⟨_, hmem, hs⟩
      · rw [hempty] at hs
        simp [emptyArray] at hs
    have := hn q hmem
    simp only [SQLWord.Fits]
    omega

/-- For every parse tree that the loader accepts, every array of it and every text: `match` returns
if and only if none of its steps goes wrong. -/
theorem loaded_returns_iff (henv : env.Forward) {fuel : Nat} {config : List JsonObject}
    {l : Loaded P} (hload : LoadParseTree env fuel config = some l) (place : Nat)
    (h : List (StatusInfo P)) (sql : Sql) :
    Returns l.tree place h sql ↔ GoesOn l.tree place sql := by
  obtain ⟨n, hplace, hfinite⟩ := (LoadParseTree_sound henv hload).finite place
  exact returns_iff_goesOn hfinite hplace h sql

def noWords : LoaderEnv Unit := ⟨fun _ => none, fun _ _ => some ([], none)⟩

theorem noWords_forward : noWords.Forward := by
  intro t p values rest h
  simp [noWords] at h

/-- A configuration with one sentence, a loop over the condition with one optional or mandatory
word. -/
def loopConfig (loop word : List Char) (optional : Bool) : List JsonObject :=
  [[(ascii ['q'], .J_OBJECT
    [(ascii ['H', 'E', 'A', 'D'], .J_BOOL true), (ascii ['L', 'O', 'O', 'P'], .J_STRING (ascii loop)),
      (ascii ['C'], .J_ARRAY [.J_OBJECT
        [(ascii ['K'], .J_STRING (ascii word)), (ascii ['O', 'P', 'T'], .J_BOOL optional)]])])]]

/-- What is loaded of it: one array, with the word for `x` and a condition. -/
def loopTree (optional : Bool) (condition : Option (SQLSingleWord Unit)) : Loaded Unit where
  arrays := [⟨false, [.single ⟨optional, .S_CHAR 120, none⟩], false, true, condition⟩]
  forwardDeclared := []
  included := [0]
  m_parseTree := [([113], 0)]
  m_parseTreeHead := [([113], 0)]

/-- The text `x,x` is matched by a loop over commas. -/
theorem loaded_returns_iff_commas :
    LoadParseTree noWords 2 (loopConfig ['_', 'C', '_', ':', ','] ['_', 'C', '_', ':', 'x'] false) =
        some (loopTree false (some ⟨false, .S_CHAR 44, none⟩)) ∧
      Returns (loopTree false (some ⟨false, .S_CHAR 44, none⟩)).tree 0 [] [120, 44, 120] :=
  ⟨rfl, (loaded_returns_iff noWords_forward (show LoadParseTree noWords 2
      (loopConfig ['_', 'C', '_', ':', ','] ['_', 'C', '_', ':', 'x'] false) =
        some (loopTree false (some ⟨false, .S_CHAR 44, none⟩)) from rfl) 0 []
    [120, 44, 120]).mpr (goesOn_of_watch (n := 4) rfl)⟩

/-- A loop that always goes on, with an optional word only, never returns. -/
theorem not_returns_always :
    LoadParseTree noWords 2
        (loopConfig ['a', 'l', 'w', 'a', 'y', 's'] ['_', 'C', '_', ':', 'x'] true) =
        some (loopTree true none) ∧
      ¬Returns (loopTree true none).tree 0 [] [121] :=
  ⟨rfl, not_returns_of_stalled (n := 2) (e := .idle) [] rfl⟩

end DBStream.Native.SQL_PARSER
