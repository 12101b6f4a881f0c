import CallTrace.Preset.Catalog
import CallTrace.Proofs.DriverGaps
import CallTrace.Proofs.Token.RoundTrip
import Mathlib

/-! # Presets that take a text

The input of such a preset is the inside of a string literal, with or without the quotes around it, and is put into
the program as it stands. So a text without quotes and backslashes is the value of the literal, and in others the
escapes are read.

* `Scan.eq_iff_of_unescaped`: reading the escapes of a text gives the text itself where it has no backslash, and only
  there.
* `Catalog.parse_reverseString`: how a program reads whose input can be the inside of a literal.
* `Preset.CallsOn`: the statements at top level declare the parameter with a text, and call the root function on it.
* `Preset.program_callsOn`: they do with the text that the input stands for.
-/

namespace CallTrace
set_option autoImplicit false

/-! ## Texts with escapes -/

namespace Scan

theorem unescaped_of_plain {cs : List Char} (hquote : '"' ∉ cs) (hslash : '\\' ∉ cs) (hline : '\n' ∉ cs) :
    unescaped cs = some cs := by
  induction cs with
  | nil => rfl
  | cons c cs ih =>
    simp only [List.mem_cons, not_or] at hquote hslash hline
    have hplain : ¬ (c = '"' ∨ c = '\\' ∨ c = '\n') := by
      simp only [not_or]
      exact ⟨Ne.symm hquote.1, Ne.symm hslash.1, Ne.symm hline.1⟩
    rw [unescaped, if_neg hplain, ih hquote.2 hslash.2 hline.2]
    · rfl
    · exact fun _ _ hc _ => hslash.1 hc.symm

theorem length_le_of_unescaped {cs ds : List Char} (h : unescaped cs = some ds) :
    ds.length ≤ cs.length ∧ ('\\' ∈ cs → ds.length < cs.length) := by
  fun_induction unescaped cs generalizing ds with
  | case1 =>
    cases h
    exact ⟨Nat.le_refl _, fun hm => absurd hm List.not_mem_nil⟩
  | case2 c cs d _ ih =>
    obtain ⟨es, hes, rfl⟩ := Option.map_eq_some_iff.mp h
    have hle := (ih hes).1
    simp only [List.length_cons]
    exact ⟨by omega, fun _ => by omega⟩
  | case3 => cases h
  | case4 => cases h
  | case5 c cs _ hc ih =>
    obtain ⟨es, hes, rfl⟩ := Option.map_eq_some_iff.mp h
    obtain ⟨hle, hlt⟩ := ih hes
    refine ⟨Nat.succ_le_succ hle, fun hm => Nat.succ_lt_succ (hlt ?_)⟩
    rcases List.mem_cons.mp hm with rfl | hm
    · simp at hc
    · exact hm

theorem unescaped_eq_of_no_escape {cs ds : List Char} (h : unescaped cs = some ds) (hslash : '\\' ∉ cs) : ds = cs := by
  fun_induction unescaped cs generalizing ds with
  | case1 =>
    cases h
    rfl
  | case2 => exact absurd List.mem_cons_self hslash
  | case3 => cases h
  | case4 => cases h
  | case5 c cs _ _ ih =>
    obtain ⟨es, hes, rfl⟩ := Option.map_eq_some_iff.mp h
    rw [ih hes fun hm => hslash (List.mem_cons_of_mem c hm)]

/-- An escape is longer than what it stands for. -/
theorem eq_iff_of_unescaped {cs ds : List Char} (h : unescaped cs = some ds) : ds = cs ↔ '\\' ∉ cs := by
  refine ⟨?_, unescaped_eq_of_no_escape h⟩
  rintro rfl hm
  exact Nat.lt_irrefl _ ((length_le_of_unescaped h).2 hm)

end Scan

/-! ## The program with a text -/

/-- A text that has no quotes around it is taken as it is. -/
theorem unquoted_eq_self {s : String} (h : ¬ ∃ t, s = "\"" ++ t ++ "\"") : unquoted s = s := by
  unfold unquoted
  split
  · next cs hcs =>
    split
    · next ds hds =>
      refine absurd ⟨String.ofList ds.reverse, ?_⟩ h
      have hback : cs = ds.reverse ++ ['"'] := by
        rw [← List.reverse_reverse cs, hds, List.reverse_cons]
      rw [← String.toList_inj, hcs, hback]
      simp
    · rfl
  · rfl

theorem not_quoted {s : String} (h : s.toList.head? ≠ some '"') : ¬ ∃ t, s = "\"" ++ t ++ "\"" := by
  rintro ⟨t, rfl⟩
  simp at h

theorem splitAtMarker_append {m : Char} {marker head : List Char} (h : m ∉ head) (after : List Char) :
    splitAtMarker (m :: marker) (head ++ (m :: marker ++ after)) = some (head, after) := by
  induction head with
  | nil => simp [splitAtMarker]
  | cons c head ih =>
    simp only [List.mem_cons, not_or] at h
    have hfirst : (m :: marker).isPrefixOf (c :: (head ++ (m :: marker ++ after))) = false := by
      simp [List.isPrefixOf, h.1]
    rw [List.cons_append, splitAtMarker, hfirst, ih h.2]
    rfl

/-- What stands before the first marker is kept. -/
theorem withDriver_append {head : String} (h : '/' ∉ head.toList) (after driver : String) :
    withDriver (head ++ driverMarker ++ after) driver = head ++ "\n" ++ driverMarker ++ "\n" ++ driver := by
  have hmarker : driverMarker.toList = '/' :: "/ Driver".toList := rfl
  have hsplit : splitAtMarker driverMarker.toList (head ++ driverMarker ++ after).toList =
      some (head.toList, after.toList) := by
    rw [String.toList_append, String.toList_append, List.append_assoc, hmarker]
    exact splitAtMarker_append h after.toList
  unfold withDriver
  rw [hsplit]
  dsimp only
  rw [String.ofList_toList]

namespace Catalog

/-- The function of `reverseString`. -/
def reversing : String :=
  "string reverseString(string s) \x7b\n    if (s.length() == 0) return \"\";\n" ++
    "    return reverseString(s.substr(1)) + s[0];\n\x7d\n\n"

theorem program_reverseString (input : String) : reverseString.program input =
    reversing ++ "\n" ++ driverMarker ++ "\n" ++
      ("string s = \"" ++ unquoted (Text.trim input) ++ "\";" ++ "\n" ++ "reverseString(s);") := by
  have hcode : reverseString.code = reversing ++ driverMarker ++ "\nstring s = \"hello\";\nreverseString(s);" := by
    decide +kernel
  have hnone : '/' ∉ reversing.toList := by decide +kernel
  have hdriver : reverseString.driver? input =
      some ("string s = \"" ++ unquoted (Text.trim input) ++ "\";" ++ "\n" ++ "reverseString(s);") := by
    have hcall : reverseString.callLine = "reverseString(s);" := by decide +kernel
    unfold Preset.driver?
    rw [hcall]
    rfl
  rw [Preset.program, hdriver, hcode]
  exact withDriver_append hnone _ _

/-! ## Its tokens -/

/-- The tokens of the function. -/
def functionTokens (us : List Token) : List Token :=
  ⟨.word .string, ⟨1, 1⟩⟩ :: ⟨.name "reverseString", ⟨1, 8⟩⟩ :: ⟨.mark .lparen, ⟨1, 21⟩⟩ :: ⟨.word .string, ⟨1, 22⟩⟩ ::
  ⟨.name "s", ⟨1, 29⟩⟩ :: ⟨.mark .rparen, ⟨1, 30⟩⟩ :: ⟨.mark .lbrace, ⟨1, 32⟩⟩ :: ⟨.word .ifWord, ⟨2, 5⟩⟩ ::
  ⟨.mark .lparen, ⟨2, 8⟩⟩ :: ⟨.name "s", ⟨2, 9⟩⟩ :: ⟨.mark .dot, ⟨2, 10⟩⟩ :: ⟨.name "length", ⟨2, 11⟩⟩ ::
  ⟨.mark .lparen, ⟨2, 17⟩⟩ :: ⟨.mark .rparen, ⟨2, 18⟩⟩ :: ⟨.mark .eqEq, ⟨2, 20⟩⟩ :: ⟨.int 0, ⟨2, 23⟩⟩ ::
  ⟨.mark .rparen, ⟨2, 24⟩⟩ :: ⟨.word .returnWord, ⟨2, 26⟩⟩ :: ⟨.str "", ⟨2, 33⟩⟩ :: ⟨.mark .semicolon, ⟨2, 35⟩⟩ ::
  ⟨.word .returnWord, ⟨3, 5⟩⟩ :: ⟨.name "reverseString", ⟨3, 12⟩⟩ :: ⟨.mark .lparen, ⟨3, 25⟩⟩ :: ⟨.name "s", ⟨3, 26⟩⟩ ::
  ⟨.mark .dot, ⟨3, 27⟩⟩ :: ⟨.name "substr", ⟨3, 28⟩⟩ :: ⟨.mark .lparen, ⟨3, 34⟩⟩ :: ⟨.int 1, ⟨3, 35⟩⟩ ::
  ⟨.mark .rparen, ⟨3, 36⟩⟩ :: ⟨.mark .rparen, ⟨3, 37⟩⟩ :: ⟨.mark .plus, ⟨3, 39⟩⟩ :: ⟨.name "s", ⟨3, 41⟩⟩ ::
  ⟨.mark .lbracket, ⟨3, 42⟩⟩ :: ⟨.int 0, ⟨3, 43⟩⟩ :: ⟨.mark .rbracket, ⟨3, 44⟩⟩ :: ⟨.mark .semicolon, ⟨3, 45⟩⟩ ::
  ⟨.mark .rbrace, ⟨4, 1⟩⟩ :: us

/-- The tokens of the declaration, with what is read as its literal. -/
def declarationTokens (k : Token.Kind) (us : List Token) : List Token :=
  ⟨.word .string, ⟨8, 1⟩⟩ :: ⟨.name "s", ⟨8, 8⟩⟩ :: ⟨.mark .eq, ⟨8, 10⟩⟩ :: ⟨k, ⟨8, 12⟩⟩ :: us

/-- The tokens of the call. -/
def callTokens : List Token :=
  [⟨.name "reverseString", ⟨9, 1⟩⟩, ⟨.mark .lparen, ⟨9, 14⟩⟩, ⟨.name "s", ⟨9, 15⟩⟩, ⟨.mark .rparen, ⟨9, 16⟩⟩,
    ⟨.mark .semicolon, ⟨9, 17⟩⟩, ⟨.eof, ⟨9, 18⟩⟩]

/-- The program up to the literal. -/
def opening : String := reversing ++ "\n" ++ driverMarker ++ "\n" ++ "string s = "

theorem tokensFrom_opening (n : Nat) (cs : List Char) :
    Scan.tokensFrom (n + 41) (opening.toList ++ '"' :: cs) ⟨1, 1⟩ =
      functionTokens (declarationTokens (Scan.stringBody [] cs ⟨8, 13⟩).value
        (Scan.tokensFrom n (Scan.stringBody [] cs ⟨8, 13⟩).rest (Scan.stringBody [] cs ⟨8, 13⟩).pos)) := by
  cbv

theorem tokensFrom_call (n c : Nat) : Scan.tokensFrom (n + 7) ";\nreverseString(s);".toList ⟨8, c⟩ =
    ⟨.mark .semicolon, ⟨8, c⟩⟩ :: callTokens := by
  cbv

theorem toList_program_reverseString (input : String) : (reverseString.program input).toList =
    opening.toList ++ '"' :: ((unquoted (Text.trim input)).toList ++ '"' :: ";\nreverseString(s);".toList) := by
  rw [program_reverseString, opening]
  simp

/-- Reading the program comes to the literal, whatever it is. -/
theorem scan_opening (input : String) : ∃ n,
    let literal := Scan.stringBody []
      ((unquoted (Text.trim input)).toList ++ '"' :: ";\nreverseString(s);".toList) ⟨8, 13⟩
    Scan.scan (reverseString.program input) = functionTokens
      (declarationTokens literal.value (Scan.tokensFrom (n + 30) literal.rest literal.pos)) := by
  have hopening : 70 ≤ opening.toList.length := by decide +kernel
  obtain ⟨n, hn⟩ : ∃ n, (reverseString.program input).length + 1 = n + 30 + 41 := by
    refine ⟨(reverseString.program input).length - 70, ?_⟩
    rw [← String.length_toList, toList_program_reverseString, List.length_append]
    omega
  refine ⟨n, ?_⟩
  rw [Scan.scan, hn, toList_program_reverseString]
  exact tokensFrom_opening _ _

theorem scan_reverseString {input : String} {cs : List Char}
    (h : Scan.unescaped (unquoted (Text.trim input)).toList = some cs) : ∃ c,
    Scan.scan (reverseString.program input) = functionTokens
      (declarationTokens (.str (String.ofList cs)) (⟨.mark .semicolon, ⟨8, c⟩⟩ :: callTokens)) := by
  obtain ⟨n, hscan⟩ := scan_opening input
  rw [Scan.stringBody_unescaped h, List.reverse_nil, List.nil_append] at hscan
  refine ⟨13 + ((unquoted (Text.trim input)).toList.length + 1), hscan.trans ?_⟩
  dsimp only
  rw [Pos.right, tokensFrom_call (n + 23)]

/-! ## Its items -/

open Surface in
/-- The function as it is read. -/
def readFunction : Surface.Function :=
  ⟨"reverseString", .scalar .string false false, [⟨"s", .scalar .string false false⟩],
    [.ifThen (.binary .eq (.method (.var "s" ⟨2, 9⟩) "length" [] ⟨2, 10⟩) (.int 0 ⟨2, 23⟩) ⟨2, 20⟩)
        [.ret (some (.str "" ⟨2, 33⟩)) ⟨2, 26⟩] ⟨2, 5⟩,
      .ret (some (.binary .add
        (.call "reverseString" [.method (.var "s" ⟨3, 26⟩) "substr" [.int 1 ⟨3, 35⟩] ⟨3, 27⟩] ⟨3, 12⟩)
        (.index (.var "s" ⟨3, 41⟩) (.int 0 ⟨3, 43⟩) ⟨3, 42⟩) ⟨3, 39⟩)) ⟨3, 5⟩],
    ⟨1, 8⟩, ⟨4, 1⟩⟩

section

open Surface Surface.Parser

theorem items_function (lines : List String) (n k : Nat) (us : List Token) :
    items lines (n + 200) (k + 1) (functionTokens us) = .function readFunction :: items lines (n + 200) k us := by
  have hnext : nextItem lines (n + 200) (functionTokens us) = (.function readFunction, us) := by rfl
  rw [functionTokens, items_cons (by simp), ← functionTokens, hnext]

theorem items_declaration (lines : List String) (n k : Nat) (text : String) (p : Pos) (us : List Token) :
    items lines (n + 200) (k + 1) (declarationTokens (.str text) (⟨.mark .semicolon, p⟩ :: us)) =
      .stmt (.decl ⟨"s", .scalar .string false false, some (.str text ⟨8, 12⟩), ⟨8, 8⟩⟩) ::
        items lines (n + 200) k us := by
  have hnext : nextItem lines (n + 200) (declarationTokens (.str text) (⟨.mark .semicolon, p⟩ :: us)) =
    (.stmt (.decl ⟨"s", .scalar .string false false, some (.str text ⟨8, 12⟩), ⟨8, 8⟩⟩), us) := by rfl
  rw [declarationTokens, items_cons (by simp), ← declarationTokens, hnext]

theorem items_call (lines : List String) (n k : Nat) : items lines (n + 200) (k + 1) callTokens =
    [.stmt (.expr (.call "reverseString" [.var "s" ⟨9, 15⟩] ⟨9, 1⟩) ⟨9, 1⟩)] := by
  have hnext : nextItem lines (n + 200) callTokens =
    (.stmt (.expr (.call "reverseString" [.var "s" ⟨9, 15⟩] ⟨9, 1⟩) ⟨9, 1⟩), [⟨.eof, ⟨9, 18⟩⟩]) := by rfl
  rw [callTokens, items_cons (by simp), ← callTokens, hnext, items_eof rfl]

end

theorem parse_reverseString {input : String} {cs : List Char}
    (h : Scan.unescaped (unquoted (Text.trim input)).toList = some cs) :
    Surface.parse (reverseString.program input) = [.function readFunction,
      .stmt (.decl ⟨"s", .scalar .string false false, some (.str (String.ofList cs) ⟨8, 12⟩), ⟨8, 8⟩⟩),
      .stmt (.expr (.call "reverseString" [.var "s" ⟨9, 15⟩] ⟨9, 1⟩) ⟨9, 1⟩)] := by
  obtain ⟨c, hscan⟩ := scan_reverseString h
  unfold Surface.parse
  dsimp only
  rw [hscan]
  have hfuel : Surface.Parser.fuelFor (functionTokens (declarationTokens (.str (String.ofList cs))
      (⟨.mark .semicolon, ⟨8, c⟩⟩ :: callTokens))) = 584 + 200 := rfl
  have hlength : (functionTokens (declarationTokens (.str (String.ofList cs))
      (⟨.mark .semicolon, ⟨8, c⟩⟩ :: callTokens))).length + 1 = 46 + 1 + 1 + 1 := rfl
  rw [hfuel, hlength, items_function, items_declaration, items_call]

theorem driver_reverseString {input : String} {cs : List Char}
    (h : Scan.unescaped (unquoted (Text.trim input)).toList = some cs) :
    (Instrumented.translate (reverseString.program input)).driver =
      [.act 8 true (.declare "s" (.str (String.ofList cs)) false),
        .act 9 true (.eval (.call "reverseString" [.var "s"]))] := by
  rw [Instrumented.translate_driver, parse_reverseString h]
  rfl

end Catalog

/-! ## Presets of the catalog -/

namespace Preset

theorem eq_reverseString_of_str {category : String} {p : Preset} (hp : (category, p) ∈ all) (hshape : p.shape = .str) :
    p = Catalog.reverseString := by
  have hstr : all.filter (fun c => c.2.shape = .str) = [("linear", Catalog.reverseString)] := by rfl
  have hmem : (category, p) ∈ all.filter (fun c => c.2.shape = .str) := by
    rw [List.mem_filter]
    exact ⟨hp, decide_eq_true hshape⟩
  rw [hstr, List.mem_singleton] at hmem
  exact congrArg Prod.snd hmem

/-- A program declares the one parameter of a preset as a string with the text as its literal, and then calls the root
function on it; there is no other statement at top level. -/
structure CallsOn (p : Preset) (input text : String) : Prop where
  reads : ∃ (functions : List Surface.Function) (name : String) (q₁ q₂ q₃ q₄ : Pos), p.params = [name] ∧
    ⟨.str text, q₁⟩ ∈ Scan.scan (p.program input) ∧
    Surface.parse (p.program input) = functions.map .function ++
      [.stmt (.decl ⟨name, .scalar .string false false, some (.str text q₁), q₂⟩),
        .stmt (.expr (.call p.rootFunction [.var name q₃] q₄) q₄)]
  driver : ∃ name line, p.params = [name] ∧ (Instrumented.translate (p.program input)).driver =
    [.act line true (.declare name (.str text) false),
      .act (line + 1) true (.eval (.call p.rootFunction [.var name]))]

theorem callsOn_reverseString {input : String} {cs : List Char}
    (h : Scan.unescaped (unquoted (Text.trim input)).toList = some cs) :
    Catalog.reverseString.CallsOn input (String.ofList cs) where
  reads := by
    obtain ⟨c, hscan⟩ := Catalog.scan_reverseString h
    refine ⟨[Catalog.readFunction], "s", ⟨8, 12⟩, ⟨8, 8⟩, ⟨9, 15⟩, ⟨9, 1⟩, rfl, ?_, Catalog.parse_reverseString h⟩
    rw [hscan]
    simp [Catalog.functionTokens, Catalog.declarationTokens]
  driver := ⟨"s", 8, rfl, Catalog.driver_reverseString h⟩

/-- For every preset of the catalog that takes a text: one without quotes and backslashes, on one line, is the value
that the parameter is declared with. Another one without quotes around it is the inside of a literal. If it can be one,
the parameter is declared with what it stands for, and this is the text itself just where it has no backslash. -/
theorem program_callsOn {category : String} {p : Preset} (hp : (category, p) ∈ all) (hshape : p.shape = .str)
    (input : String) :
    let text := Text.trim input
    ('"' ∉ text.toList → '\\' ∉ text.toList → '\n' ∉ text.toList → p.CallsOn input text) ∧
    ∀ cs, (¬ ∃ t, text = "\"" ++ t ++ "\"") → Scan.unescaped text.toList = some cs →
      p.CallsOn input (String.ofList cs) ∧ (String.ofList cs = text ↔ '\\' ∉ text.toList) := by
  intro text
  obtain rfl := eq_reverseString_of_str hp hshape
  have hcalls {cs : List Char} (hbare : ¬ ∃ t, text = "\"" ++ t ++ "\"") (h : Scan.unescaped text.toList = some cs) :
      Catalog.reverseString.CallsOn input (String.ofList cs) := by
    refine callsOn_reverseString ?_
    rw [unquoted_eq_self hbare]
    exact h
  refine ⟨fun hquote hslash hline => ?_, fun cs hbare h => ⟨hcalls hbare h, ?_⟩⟩
  · have hbare : ¬ ∃ t, text = "\"" ++ t ++ "\"" :=
      not_quoted fun hfirst => hquote (List.mem_of_mem_head? hfirst)
    have hself := hcalls hbare (Scan.unescaped_of_plain hquote hslash hline)
    rwa [String.ofList_toList] at hself
  · rw [← String.toList_inj, String.toList_ofList]
    exact Scan.eq_iff_of_unescaped h

/-- A text with blanks around it, and one with an escape in it. -/
theorem program_callsOn_reverseString :
    ("linear", Catalog.reverseString) ∈ all ∧ Catalog.reverseString.shape = .str ∧
    Catalog.reverseString.CallsOn " it's \t" "it's" ∧
    Catalog.reverseString.CallsOn "say \\\"hi\\\"" "say \"hi\"" := by
  have hmem : ("linear", Catalog.reverseString) ∈ all := by simp [all, catalog]
  obtain ⟨hplain, -⟩ := program_callsOn hmem rfl " it's \t"
  obtain ⟨-, hescaped⟩ := program_callsOn hmem rfl "say \\\"hi\\\""
  have htrim : Text.trim " it's \t" = "it's" := by decide +kernel
  have htrim' : Text.trim "say \\\"hi\\\"" = "say \\\"hi\\\"" := by decide +kernel
  rw [htrim] at hplain
  rw [htrim'] at hescaped
  refine ⟨hmem, rfl, hplain (by decide) (by decide) (by decide), (hescaped _ (not_quoted (by decide)) rfl).1⟩

/-! ## Texts that do not come back -/

/-- A quote in the text ends the literal, so the declaration cannot be read, and takes the call with it. -/
theorem parse_bareQuote : ∃ text reason pos, Surface.parse (Catalog.reverseString.program "a\"b") =
    [.function Catalog.readFunction, .stmt (.unsupported text reason pos)] := by
  obtain ⟨n, hscan⟩ := Catalog.scan_opening "a\"b"
  have htext : (unquoted (Text.trim "a\"b")).toList = ['a', '"', 'b'] := by decide +kernel
  have hliteral : Scan.stringBody [] (['a', '"', 'b'] ++ '"' :: ";\nreverseString(s);".toList) ⟨8, 13⟩ =
      ⟨.str "a", "b\";\nreverseString(s);".toList, ⟨8, 15⟩⟩ := by cbv
  have htokens : Scan.tokensFrom (n + 30) "b\";\nreverseString(s);".toList ⟨8, 15⟩ =
      ⟨.name "b", ⟨8, 15⟩⟩ :: ⟨.invalid .unterminatedString, ⟨8, 16⟩⟩ :: Catalog.callTokens := by cbv
  rw [htext, hliteral] at hscan
  dsimp only at hscan
  rw [htokens] at hscan
  have hfuel : Surface.Parser.fuelFor (Catalog.functionTokens (Catalog.declarationTokens (.str "a")
      (⟨.name "b", ⟨8, 15⟩⟩ :: ⟨.invalid .unterminatedString, ⟨8, 16⟩⟩ :: Catalog.callTokens))) = 600 + 200 := rfl
  have hlength : (Catalog.functionTokens (Catalog.declarationTokens (.str "a")
      (⟨.name "b", ⟨8, 15⟩⟩ :: ⟨.invalid .unterminatedString, ⟨8, 16⟩⟩ :: Catalog.callTokens))).length + 1 =
        48 + 1 + 1 := rfl
  have hnext (lines : List String) (n : Nat) : Surface.Parser.nextItem lines (n + 200)
      (Catalog.declarationTokens (.str "a")
        (⟨.name "b", ⟨8, 15⟩⟩ :: ⟨.invalid .unterminatedString, ⟨8, 16⟩⟩ :: Catalog.callTokens)) =
      (.stmt (.unsupported (Surface.Parser.linesText lines 8 9)
        "Expected ';' after variable declaration, found identifier 'b'" ⟨8, 1⟩), [⟨.eof, ⟨9, 18⟩⟩]) := by rfl
  unfold Surface.parse
  dsimp only
  rw [hscan, hfuel, hlength, Catalog.items_function, Catalog.declarationTokens, Surface.Parser.items_cons (by simp),
    ← Catalog.declarationTokens, hnext, Surface.Parser.items_eof rfl]
  exact ⟨_, _, _, rfl⟩

/-- A text on one line comes back: without quotes around it, it is the value that the parameter is declared with. -/
def Survives (p : Preset) (input : String) : Prop :=
  '\n' ∉ input.toList → (¬ ∃ t, Text.trim input = "\"" ++ t ++ "\"") → p.CallsOn input (Text.trim input)

/-- An escape is read, and a quote ends the literal. -/
theorem not_survives : ("linear", Catalog.reverseString) ∈ all ∧ Catalog.reverseString.shape = .str ∧
    ¬ Catalog.reverseString.Survives "a\\tb" ∧ ¬ Catalog.reverseString.Survives "a\"b" := by
  refine ⟨by simp [all, catalog], rfl, fun h => ?_, fun h => ?_⟩
  · have htrim : Text.trim "a\\tb" = "a\\tb" := by decide +kernel
    have hbare : ¬ ∃ t, Text.trim "a\\tb" = "\"" ++ t ++ "\"" := by
      rw [htrim]
      exact not_quoted (by decide)
    have hescaped : Scan.unescaped (unquoted (Text.trim "a\\tb")).toList = some ['a', '\t', 'b'] := by
      rw [unquoted_eq_self hbare, htrim]
      rfl
    obtain ⟨name, line, -, hdriver⟩ := (h (by decide) hbare).driver
    rw [Catalog.driver_reverseString hescaped, htrim] at hdriver
    simp at hdriver
  · have htrim : Text.trim "a\"b" = "a\"b" := by decide +kernel
    have hbare : ¬ ∃ t, Text.trim "a\"b" = "\"" ++ t ++ "\"" := by
      rw [htrim]
      exact not_quoted (by decide)
    obtain ⟨text, reason, pos, hparse⟩ := parse_bareQuote
    obtain ⟨functions, name, q₁, q₂, q₃, q₄, -, -, hreads⟩ := (h (by decide) hbare).reads
    rw [hparse] at hreads
    have hlast := congrArg List.getLast? hreads
    simp at hlast

end Preset

end CallTrace
