import Mathlib.Data.List.Basic
import PdfStream.CommandLine.Request

/-!
The arguments that ask for a request. Values stand behind equals signs and the input behind two
dashes, so that any text may be given, and reading the arguments brings the request back.
-/
namespace PdfStream.CommandLine

namespace Parameter

def longName (p : Parameter) : String := p.long?.getD ""

/-- The option with its value in one argument. -/
def spell (p : Parameter) (text : String) : String := "--" ++ p.longName ++ "=" ++ text

/-- Among `known`, the long name stands for this option and no other, and it takes a value. -/
structure IsAsked (known : List Parameter) (p : Parameter) : Prop where
  found : known.find? (·.long? = some p.longName) = some p
  plain : ∀ c ∈ p.longName.toList, decide (c ≠ '=') = true
  takesValue : p.takesValue = true

theorem isAsked_filterRequest {p : Parameter}
    (h : p = .filter ∨ p = .parm ∨ p = .key ∨ p = .cipher ∨ p = .outfile) :
    IsAsked FilterRequest.parameters p := by
  rcases h with rfl | rfl | rfl | rfl | rfl <;>
    exact ⟨by decide, List.all_eq_true.1 (by decide), rfl⟩

end Parameter

section
variable {known : List Parameter} {p : Parameter}

/-- The value is what stands behind the first equals sign. -/
theorem readArgument_spell (h : p.IsAsked known) (text : String) :
    readArgument known (p.spell text) = ([.value p text], none) := by
  have hspell : (p.spell text).toList =
      '-' :: '-' :: (p.longName.toList ++ '=' :: text.toList) := by
    simp [Parameter.spell]
  have hbefore : (p.longName.toList ++ '=' :: text.toList).takeWhile (· ≠ '=') =
      p.longName.toList := by
    rw [List.takeWhile_append_of_pos h.plain]
    simp
  have hbehind : (p.longName.toList ++ '=' :: text.toList).dropWhile (· ≠ '=') =
      '=' :: text.toList := by
    rw [List.dropWhile_append_of_pos h.plain]
    simp
  simp only [readArgument, hspell, readLong, hbefore, hbehind, String.ofList_toList, h.found,
    h.takesValue, ↓reduceIte]

theorem spell_ne_dashes (p : Parameter) (text : String) : p.spell text ≠ "--" := by
  intro h
  have hchars := congrArg String.toList h
  simp [Parameter.spell] at hchars

theorem readItems_spell (h : p.IsAsked known) (text : String) (rest : List String) :
    readItems known none (p.spell text :: rest) = .value p text :: readItems known none rest := by
  simp [readItems, spell_ne_dashes, readArgument_spell h]

theorem readItems_map_spell (h : p.IsAsked known) (texts rest : List String) :
    readItems known none (texts.map p.spell ++ rest) =
      texts.map (.value p) ++ readItems known none rest := by
  induction texts with
  | nil => rfl
  | cons text texts ih =>
    rw [List.map_cons, List.cons_append, readItems_spell h, ih]
    rfl

end

/-- The name of the cipher on the command line. -/
def cipherText : CipherKind → String
  | .rc4 => "rc4"
  | .aes128Cbc => "aes128"
  | .aes256Cbc => "aes256"

namespace FilterRequest

def command (r : FilterRequest) : String :=
  match r.direction with
  | .encode => "encode"
  | .decode => "decode"

/-- Arguments that ask for the request. -/
def arguments (r : FilterRequest) : List String :=
  r.command :: ((if r.debug then ["--debug"] else []) ++ (r.filters.map Parameter.filter.spell ++
    (r.parms.map Parameter.parm.spell ++ (r.key.toList.map Parameter.key.spell ++
    ((r.cipher.map cipherText).toList.map Parameter.cipher.spell ++
    (r.output.toList.map Parameter.outfile.spell ++ "--" :: r.input.toList))))))

/-- The items that the arguments stand for. -/
def items (r : FilterRequest) : List Item :=
  (if r.debug then [.flag .debug] else []) ++ (r.filters.map (.value .filter) ++
    (r.parms.map (.value .parm) ++ (r.key.toList.map (.value .key) ++
    ((r.cipher.map cipherText).toList.map (.value .cipher) ++
    (r.output.toList.map (.value .outfile) ++ r.input.toList.map .operand)))))

theorem readItems_arguments (r : FilterRequest) :
    readItems parameters none r.arguments.tail = r.items := by
  have hdebug (rest : List String) :
      readItems parameters none ((if r.debug then ["--debug"] else []) ++ rest) =
        (if r.debug then [.flag .debug] else []) ++ readItems parameters none rest := by
    cases r.debug with
    | false => rfl
    | true =>
      have hread : readArgument parameters "--debug" = ([.flag .debug], none) := by decide
      simp [readItems, hread]
  have hinput : readItems parameters none ("--" :: r.input.toList) =
      r.input.toList.map .operand := by
    simp [readItems]
  have hspell {p : Parameter}
      (h : p = .filter ∨ p = .parm ∨ p = .key ∨ p = .cipher ∨ p = .outfile)
      (texts rest : List String) :
      readItems parameters none (texts.map p.spell ++ rest) =
        texts.map (.value p) ++ readItems parameters none rest :=
    readItems_map_spell (Parameter.isAsked_filterRequest h) texts rest
  simp only [arguments, List.tail_cons, hdebug, hspell, hinput, items, true_or, or_true]

/-- Texts that a field collects one by one. -/
theorem foldlM_take_map {item : String → Item}
    (collect : FilterRequest → List String → FilterRequest)
    (hstep : ∀ r text, take r (item text) = .ok (collect r [text]))
    (hnil : ∀ r, collect r [] = r)
    (happend : ∀ r texts texts', collect (collect r texts) texts' = collect r (texts ++ texts'))
    (r : FilterRequest) (texts : List String) :
    (texts.map item).foldlM take r = .ok (collect r texts) := by
  induction texts generalizing r with
  | nil =>
    rw [hnil]
    rfl
  | cons text texts ih =>
    rw [List.map_cons, List.foldlM_cons, hstep]
    exact (ih _).trans (congrArg Except.ok (happend r [text] texts))

/-- Filters are named, and a path that is given is not empty. -/
structure IsComplete (r : FilterRequest) : Prop where
  filters : r.filters ≠ []
  input : r.input ≠ some ""
  output : r.output ≠ some ""

/-- Item by item, each finds its place still empty. -/
theorem foldlM_take_items {r : FilterRequest} (h : r.IsComplete) :
    r.items.foldlM take { direction := r.direction } = .ok r := by
  obtain ⟨direction, filters, parms, key, cipher, input, output, debug⟩ := r
  obtain ⟨-, hinput, houtput⟩ := h
  have hdebug : (if debug then [Item.flag .debug] else []).foldlM take { direction } =
      .ok { direction, debug } := by
    cases debug <;> rfl
  have hfilters : (filters.map (Item.value .filter)).foldlM take { direction, debug } =
      .ok { direction, debug, filters } :=
    foldlM_take_map (fun r names => { r with filters := r.filters ++ names })
      (fun _ _ => rfl) (by simp) (by simp) _ filters
  have hparms : (parms.map (Item.value .parm)).foldlM take { direction, debug, filters } =
      .ok { direction, debug, filters, parms } :=
    foldlM_take_map (fun r pairs => { r with parms := r.parms ++ pairs })
      (fun _ _ => rfl) (by simp) (by simp) _ parms
  have hkey : (key.toList.map (Item.value .key)).foldlM take { direction, debug, filters, parms } =
      .ok { direction, debug, filters, parms, key } := by
    cases key <;> rfl
  have hcipher : ((cipher.map cipherText).toList.map (Item.value .cipher)).foldlM take
      { direction, debug, filters, parms, key } =
        .ok { direction, debug, filters, parms, key, cipher } := by
    rcases cipher with _ | _ | _ | _ <;> rfl
  have houtput : (output.toList.map (Item.value .outfile)).foldlM take
      { direction, debug, filters, parms, key, cipher } =
        .ok { direction, debug, filters, parms, key, cipher, output } := by
    cases output with
    | none => rfl
    | some path =>
      have hpath : oncePath none path = .ok (some path) :=
        if_neg fun h => houtput (congrArg some h)
      simp [take, hpath, bind, Except.bind, pure, Except.pure]
  have hinput : (input.toList.map Item.operand).foldlM take
      { direction, debug, filters, parms, key, cipher, output } =
        .ok { direction, debug, filters, parms, key, cipher, output, input } := by
    cases input with
    | none => rfl
    | some path =>
      have hpath : oncePath none path = .ok (some path) :=
        if_neg fun h => hinput (congrArg some h)
      simp [take, hpath, bind, Except.bind, pure, Except.pure]
  simp only [items, List.foldlM_append, hdebug, hfilters, hparms, hkey, hcipher, houtput, hinput,
    bind, Except.bind]

theorem ofArguments_arguments_tail {r : FilterRequest} (h : r.IsComplete) :
    ofArguments r.direction r.arguments.tail = .ok r := by
  simp [ofArguments, readItems_arguments, foldlM_take_items h, h.filters, bind, Except.bind, pure,
    Except.pure]

end FilterRequest

/-- Every request for filters can be asked for. -/
theorem Request.ofArguments_arguments {r : FilterRequest} (h : r.IsComplete) :
    ofArguments r.arguments = .filter r := by
  have htail := FilterRequest.ofArguments_arguments_tail h
  have hcons : r.arguments = r.command :: r.arguments.tail := rfl
  rw [hcons, ofArguments, ofArgumentsAfter]
  cases hdirection : r.direction with
  | encode =>
    have hcommand : topic? r.command = some .encode := by
      rw [FilterRequest.command, hdirection]
      rfl
    rw [hdirection] at htail
    simp only [hcommand, ofCommand, htail]
  | decode =>
    have hcommand : topic? r.command = some .decode := by
      rw [FilterRequest.command, hdirection]
      rfl
    rw [hdirection] at htail
    simp only [hcommand, ofCommand, htail]

end PdfStream.CommandLine
