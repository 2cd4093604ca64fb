import PdfStream.DecodeParms
import PdfStream.Proofs.Text

/-!
Pairs of a key and a value, read from a text and written as one. The pairs that some text stands for
are told without the reader: each comes back from its written form behind a slash. Without that
slash, the reader takes blanks in front of the key away, so exactly the keys with no blank in front
come back.
-/
namespace PdfStream

/-- The value as it stands behind an equals sign, a name with its slash. -/
def ParamValue.print : ParamValue → String
  | .int i => toString i
  | .bool b => toString b
  | .name n => "/" ++ n

namespace DecodeParms

def printPair (key : String) (value : ParamValue) : String :=
  key ++ "=" ++ value.print

theorem toList_printPair (key : String) (value : ParamValue) :
    (printPair key value).toList = key.toList ++ '=' :: value.print.toList := by
  simp [printPair]

/-- No slash in front and no blank at the end. -/
structure IsName (cs : List Char) : Prop where
  first : ∀ c ∈ cs.head?, c ≠ '/'
  last : ∀ c ∈ cs.getLast?, Text.isBlank c = false

theorem dropSlashes_eq_self_iff {cs : List Char} :
    dropSlashes cs = cs ↔ ∀ c ∈ cs.head?, c ≠ '/' := by
  rw [dropSlashes, Text.dropWhile_eq_self_iff]
  simp

theorem dropSlashes_suffix (cs : List Char) : dropSlashes cs <:+ cs :=
  List.dropWhile_suffix _

theorem isName_dropSlashes_trim (cs : List Char) : IsName (dropSlashes (Text.trim cs)) where
  first := dropSlashes_eq_self_iff.1 (List.dropWhile_idempotent _ _)
  last := Text.last_of_isSuffix (dropSlashes_suffix _) (Text.last_trim cs)

theorem dropSlashes_trim_sublist (cs : List Char) : (dropSlashes (Text.trim cs)).Sublist cs :=
  (dropSlashes_suffix _).sublist.trans (Text.trim_sublist cs)

section
variable {cs : List Char}

theorem trim_slash (h : IsName cs) : Text.trim ('/' :: cs) = '/' :: cs := by
  apply Text.trim_eq_self
  · rintro c ⟨rfl⟩
    rfl
  · intro c hc
    -- With nothing behind it, the slash is itself at the end.
    rcases List.eq_nil_or_concat cs with rfl | ⟨front, b, rfl⟩
    · obtain rfl : '/' = c := by simpa using hc
      rfl
    · refine h.last c ?_
      simpa [List.getLast?_cons] using hc

/-- A slash in front protects the blanks behind it. -/
theorem dropSlashes_trim_slash (h : IsName cs) : dropSlashes (Text.trim ('/' :: cs)) = cs := by
  rw [trim_slash h]
  exact dropSlashes_eq_self_iff.2 h.first

theorem dropSlashes_trim (h : IsName cs) :
    dropSlashes (Text.trim cs) = dropSlashes (cs.dropWhile Text.isBlank) := by
  rw [Text.trim_eq_dropWhile h.last]

/-- A name that is read once more stays as it is unless a blank is in front. -/
theorem dropSlashes_dropWhile_eq_self_iff (h : IsName cs) :
    dropSlashes (cs.dropWhile Text.isBlank) = cs ↔ ∀ c ∈ cs.head?, Text.isBlank c = false := by
  rw [← Text.dropWhile_eq_self_iff]
  constructor
  · intro hself
    -- If nothing is gone after both cuts, then nothing was after the first.
    have hlength := (dropSlashes_suffix (cs.dropWhile Text.isBlank)).length_le
    rw [hself] at hlength
    exact (List.dropWhile_suffix Text.isBlank).eq_of_length_le hlength
  · intro hself
    rw [hself]
    exact dropSlashes_eq_self_iff.2 h.first

end

structure IsKey (key : String) : Prop where
  nonempty : key ≠ ""
  noEquals : '=' ∉ key.toList
  isName : IsName key.toList

def IsValue : ParamValue → Prop
  | .int i => -2 ^ 63 ≤ i ∧ i < 2 ^ 63
  | .bool _ => True
  | .name n => IsName n.toList

/-- Behind a slash all is a name, be it digits or a truth value. -/
theorem valueOf_slash (cs : List Char) :
    valueOf ('/' :: cs) = .name (String.ofList (dropSlashes cs)) := by
  have hint : Decimal.int64? ('/' :: cs) = none := rfl
  simp [valueOf, hint, dropSlashes]

theorem isValue_valueOf_trim (cs : List Char) : IsValue (valueOf (Text.trim cs)) := by
  unfold valueOf
  split
  · next i hint => exact (Decimal.int64?_eq_some_iff.1 hint).2
  · split_ifs
    · trivial
    · trivial
    · rw [IsValue, String.toList_ofList]
      exact isName_dropSlashes_trim cs

/-- A value is read back from its written form. -/
theorem valueOf_trim_print {value : ParamValue} (h : IsValue value) :
    valueOf (Text.trim value.print.toList) = value := by
  cases value with
  | int i =>
    have hvisible : ∀ c ∈ (toString i).toList, Text.isBlank c = false :=
      fun c => Decimal.isBlank_eq_false_of_mem_toString
    rw [ParamValue.print, Text.trim_eq_self_of_forall hvisible, valueOf, Decimal.int64?_toString h]
  | bool b => cases b <;> rfl
  | name n =>
    have hprint : (ParamValue.name n).print.toList = '/' :: n.toList := by
      simp [ParamValue.print]
    rw [hprint, trim_slash h, valueOf_slash, dropSlashes_eq_self_iff.2 h.first,
      String.ofList_toList]

section
variable {pair key : String} {value : ParamValue}

/-- A pair is read at the first equals sign. -/
theorem parsePair_of_split {keyText valueText : List Char}
    (hpair : pair.toList = keyText ++ '=' :: valueText) (hkey : '=' ∉ keyText) :
    parsePair pair =
      if dropSlashes (Text.trim keyText) = [] then .error (.configuration (.emptyKey pair))
      else .ok (String.ofList (dropSlashes (Text.trim keyText)), valueOf (Text.trim valueText)) := by
  have hplain : ∀ c ∈ keyText, decide (c ≠ '=') = true := by
    intro c hc
    exact decide_eq_true fun h => hkey (h ▸ hc)
  have hmem : '=' ∈ pair.toList := by
    rw [hpair]
    exact List.mem_append_right keyText List.mem_cons_self
  have hbefore : pair.toList.takeWhile (· ≠ '=') = keyText := by
    rw [hpair, List.takeWhile_append_of_pos hplain]
    simp
  have hbehind : (pair.toList.dropWhile (· ≠ '=')).drop 1 = valueText := by
    rw [hpair, List.dropWhile_append_of_pos hplain]
    simp
  simp only [parsePair, if_pos hmem, hbefore, hbehind]

theorem parsePair_eq_ok_iff : parsePair pair = .ok (key, value) ↔
    ∃ keyText valueText, pair.toList = keyText ++ '=' :: valueText ∧ '=' ∉ keyText ∧ key ≠ "" ∧
      dropSlashes (Text.trim keyText) = key.toList ∧ valueOf (Text.trim valueText) = value := by
  constructor
  · intro h
    by_cases hmem : '=' ∈ pair.toList
    · obtain ⟨keyText, valueText, hpair, hkey⟩ := List.eq_append_cons_of_mem hmem
      rw [parsePair_of_split hpair hkey] at h
      split_ifs at h with hempty
      obtain ⟨rfl, rfl⟩ := Prod.mk.inj (Except.ok.inj h)
      refine ⟨keyText, valueText, hpair, hkey, ?_, String.toList_ofList.symm, rfl⟩
      rwa [← String.toList_eq_nil_iff.ne, String.toList_ofList]
    · simp [parsePair, hmem] at h
  · rintro ⟨keyText, valueText, hpair, hkey, hnonempty, hname, rfl⟩
    rw [parsePair_of_split hpair hkey, hname, if_neg (String.toList_eq_nil_iff.not.2 hnonempty),
      String.ofList_toList]

theorem isKey_of_parsePair (h : parsePair pair = .ok (key, value)) : IsKey key := by
  obtain ⟨keyText, valueText, -, hkey, hnonempty, hname, -⟩ := parsePair_eq_ok_iff.1 h
  refine ⟨hnonempty, ?_, ?_⟩
  · rw [← hname]
    exact fun hmem => hkey ((dropSlashes_trim_sublist keyText).mem hmem)
  · rw [← hname]
    exact isName_dropSlashes_trim keyText

theorem isValue_of_parsePair (h : parsePair pair = .ok (key, value)) : IsValue value := by
  obtain ⟨keyText, valueText, -, -, -, -, rfl⟩ := parsePair_eq_ok_iff.1 h
  exact isValue_valueOf_trim valueText

/-- Blanks in front of the key are lost, and slashes behind them; the value is not touched. -/
theorem parsePair_printPair (hkey : IsKey key) (hvalue : IsValue value) :
    parsePair (printPair key value) =
      if dropSlashes (key.toList.dropWhile Text.isBlank) = [] then
        .error (.configuration (.emptyKey (printPair key value)))
      else .ok (String.ofList (dropSlashes (key.toList.dropWhile Text.isBlank)), value) := by
  rw [parsePair_of_split (toList_printPair key value) hkey.noEquals, dropSlashes_trim hkey.isName,
    valueOf_trim_print hvalue]

theorem parsePair_slash_printPair (hkey : IsKey key) (hvalue : IsValue value) :
    parsePair ("/" ++ printPair key value) = .ok (key, value) := by
  refine parsePair_eq_ok_iff.2 ⟨'/' :: key.toList, value.print.toList, ?_, ?_, hkey.nonempty,
    dropSlashes_trim_slash hkey.isName, valueOf_trim_print hvalue⟩
  · simp [toList_printPair]
  · simp [hkey.noEquals]

theorem parsePair_printPair_eq_iff (hkey : IsKey key) (hvalue : IsValue value) :
    parsePair (printPair key value) = .ok (key, value) ↔
      ∀ c ∈ key.toList.head?, Text.isBlank c = false := by
  rw [parsePair_printPair hkey hvalue, ← dropSlashes_dropWhile_eq_self_iff hkey.isName]
  constructor
  · intro h
    split_ifs at h
    obtain ⟨hname, -⟩ := Prod.mk.inj (Except.ok.inj h)
    exact String.toList_ofList.symm.trans (congrArg String.toList hname)
  · intro hname
    rw [hname, if_neg (String.toList_eq_nil_iff.not.2 hkey.nonempty), String.ofList_toList]

/-- The pairs that some text stands for. -/
theorem exists_parsePair_iff :
    (∃ pair, parsePair pair = .ok (key, value)) ↔ IsKey key ∧ IsValue value := by
  constructor
  · rintro ⟨pair, h⟩
    exact ⟨isKey_of_parsePair h, isValue_of_parsePair h⟩
  · rintro ⟨hkey, hvalue⟩
    exact ⟨"/" ++ printPair key value, parsePair_slash_printPair hkey hvalue⟩

/-- A pair that was read comes back from its written form, provided that no blank is in front of the
key; behind a slash it comes back in any case. -/
theorem parsePair_readsBack (h : parsePair pair = .ok (key, value)) :
    key ≠ "" ∧ '=' ∉ key.toList ∧
      (parsePair (printPair key value) = .ok (key, value) ↔
        ∀ c ∈ key.toList.head?, Text.isBlank c = false) ∧
      parsePair ("/" ++ printPair key value) = .ok (key, value) := by
  have hkey := isKey_of_parsePair h
  have hvalue := isValue_of_parsePair h
  exact ⟨hkey.nonempty, hkey.noEquals, parsePair_printPair_eq_iff hkey hvalue,
    parsePair_slash_printPair hkey hvalue⟩

/-- A name of digits, and blanks and slashes that are gone. -/
theorem parsePair_readsBack_digits :
    parsePair " /Name = //12 " = .ok ("Name", .name "12") ∧
      parsePair "Name=/12" = .ok ("Name", .name "12") := by
  have h : parsePair " /Name = //12 " = .ok ("Name", .name "12") := rfl
  refine ⟨h, (parsePair_readsBack h).2.2.1.2 ?_⟩
  intro c hc
  obtain rfl : 'N' = c := Option.some.inj hc
  rfl

/-- A blank behind the slash is part of the key, and is lost when the key is read again. -/
theorem parsePair_blank_lost :
    parsePair "/ K=1" = .ok (" K", .int 1) ∧ printPair " K" (.int 1) = " K=1" ∧
      parsePair (printPair " K" (.int 1)) = .ok ("K", .int 1) ∧
      parsePair (printPair " K" (.int 1)) ≠ .ok (" K", .int 1) := by
  decide

end

end DecodeParms
end PdfStream
