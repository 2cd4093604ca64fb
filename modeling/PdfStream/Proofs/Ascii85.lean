import PdfStream.Proofs.Bytes
import PdfStream.Proofs.Coder

/-!
ASCII85 sessions. Both directions go byte by byte. A text of whole groups and one shorter group at
the end reads back as the data; a first digit that looks like the opening mark makes no difference.
-/
namespace PdfStream.Ascii85

def encoding : Coder Ascii85 := ⟨fun data c => c.encodeBlock data, endEncode⟩

def decoding : Coder Ascii85 := ⟨fun data c => c.decodeBlock data, endDecode⟩

/-- What encoding makes of the data. -/
def encoded (c : Ascii85) (data : Bytes) : Option Bytes :=
  ((Step.run addByte c data).andThen endEncode).output?

/-- What reading makes of the data. -/
def decoded (c : Ascii85) (data : Bytes) : Option Bytes :=
  ((Step.run readByte c data).andThen endDecode).output?

theorem encoding_computes (c : Ascii85) : encoding.Computes c (encoded c) :=
  Coder.computes_run encoding addByte endEncode id
    (fun s data => Step.agrees_joined (Step.run addByte s data)) (fun _ => rfl) c

theorem decoding_computes (c : Ascii85) : decoding.Computes c (decoded c) :=
  Coder.computes_run decoding readByte endDecode id
    (fun s data => .refl (Step.run readByte s data)) (fun _ => rfl) c

/-- The `count` low digits of `n` in base 85, high digit first. -/
def baseDigits : (count n : Nat) → Bytes
  | 0, _ => []
  | count + 1, n => baseDigits count (n / 85) ++ [UInt8.ofNat (n % 85)]

theorem digits_eq_map (count n : Nat) : digits count n = (baseDigits count n).map (0x21 + ·) := by
  induction count generalizing n with
  | zero => rfl
  | succ count ih => rw [digits, baseDigits, ih, List.map_append, List.map_singleton]

theorem length_baseDigits (count n : Nat) : (baseDigits count n).length = count := by
  induction count generalizing n with
  | zero => rfl
  | succ count ih => rw [baseDigits, List.length_append, ih, List.length_singleton]

/-- Every byte is a digit. -/
def AreDigits (group : Bytes) : Prop := ∀ d ∈ group, d.toNat < 85

theorem areDigits_baseDigits (count n : Nat) : AreDigits (baseDigits count n) := by
  induction count generalizing n with
  | zero => exact fun d hd => absurd hd List.not_mem_nil
  | succ count ih =>
    intro d hd
    rcases List.mem_append.1 hd with hhigh | hlow
    · exact ih _ d hhigh
    · rw [List.mem_singleton.1 hlow, UInt8.toNat_ofNat']
      omega

theorem AreDigits.take {group : Bytes} (h : AreDigits group) (n : Nat) : AreDigits (group.take n) :=
  fun d hd => h d (List.mem_of_mem_take hd)

theorem AreDigits.concat {group : Bytes} (h : AreDigits group) {d : UInt8} (hd : d.toNat < 85) :
    AreDigits (group ++ [d]) := by
  intro e he
  rcases List.mem_append.1 he with hold | hnew
  · exact h e hold
  · rwa [List.mem_singleton.1 hnew]

theorem value_append_singleton (group : Bytes) (d : UInt8) :
    value (group ++ [d]) = value group * 85 + d.toNat := by
  rw [value, List.foldl_append]
  rfl

theorem value_append (group group' : Bytes) :
    value (group ++ group') = value group * 85 ^ group'.length + value group' := by
  induction group' using List.reverseRecOn with
  | nil => simp [value]
  | append_singleton group' d ih =>
    rw [← List.append_assoc, value_append_singleton, value_append_singleton, ih,
      List.length_append, List.length_singleton, Nat.pow_succ, Nat.add_mul, ← Nat.mul_assoc,
      Nat.add_assoc]

theorem value_lt {group : Bytes} (h : AreDigits group) : value group < 85 ^ group.length := by
  induction group using List.reverseRecOn with
  | nil => exact Nat.one_pos
  | append_singleton group d ih =>
    have hd : d.toNat < 85 := h d (List.mem_append_right _ (List.mem_singleton_self d))
    have hhigh := ih fun e he => h e (List.mem_append_left _ he)
    rw [value_append_singleton, List.length_append, List.length_singleton, Nat.pow_succ]
    omega

theorem value_baseDigits {count n : Nat} (h : n < 85 ^ count) : value (baseDigits count n) = n := by
  induction count generalizing n with
  | zero =>
    rw [Nat.pow_zero] at h
    exact (Nat.lt_one_iff.1 h).symm
  | succ count ih =>
    have hdigit : (UInt8.ofNat (n % 85)).toNat = n % 85 := by
      rw [UInt8.toNat_ofNat']
      omega
    rw [Nat.pow_succ] at h
    rw [baseDigits, value_append_singleton, ih (by omega), hdigit]
    omega

theorem value_highest (count : Nat) : value (List.replicate count 84) + 1 = 85 ^ count := by
  induction count with
  | zero => rfl
  | succ count ih =>
    have hdigit : (84 : UInt8).toNat = 84 := rfl
    rw [List.replicate_succ', value_append_singleton, hdigit, Nat.pow_succ]
    omega

/-- Leading digits, filled up with the highest digit, stand for the number or for one shortly after
it. -/
theorem value_take {group : Bytes} (h : AreDigits group) (n : Nat) :
    value group ≤ value (group.take n ++ List.replicate (group.length - n) 84) ∧
      value (group.take n ++ List.replicate (group.length - n) 84) <
        value group + 85 ^ (group.length - n) := by
  have hsplit : value group =
      value (group.take n) * 85 ^ (group.length - n) + value (group.drop n) := by
    have hvalue := value_append (group.take n) (group.drop n)
    rwa [List.take_append_drop, List.length_drop] at hvalue
  have hlow : value (group.drop n) < 85 ^ (group.length - n) := by
    have hdigits : AreDigits (group.drop n) := fun d hd => h d (List.mem_of_mem_drop hd)
    have hdrop := value_lt hdigits
    rwa [List.length_drop] at hdrop
  have hhighest := value_highest (group.length - n)
  rw [value_append, List.length_replicate]
  omega

theorem decodeGroup_of_lt {group : Bytes} (h : value group < 1 <<< 32) :
    decodeGroup group = .ok (Bytes.ofNat 4 (value group)) := if_pos h

theorem pushDigit_of_short {c : Ascii85} (d : UInt8) (h : c.group.length < 4) :
    pushDigit c d = .quiet { c with group := c.group ++ [d] } := by
  have hlength : (c.group ++ [d]).length ≠ 5 := by
    rw [List.length_append, List.length_singleton]
    omega
  exact if_neg hlength

/-- The characters of digits are neither blanks nor marks. -/
theorem char_digit (d : UInt8) : d.toNat < 85 → ¬isPdfBlank (0x21 + d) = true ∧
    0x21 + d ≠ 0x7E ∧ 0x21 + d ≠ 0x7A ∧ (0x21 ≤ 0x21 + d ∧ 0x21 + d ≤ 0x75) ∧
      0x21 + d - 0x21 = d := by
  revert d
  apply forall_byte
  decide +kernel

theorem readByte_digit {group : Bytes} {d : UInt8} (hd : d.toNat < 85) :
    readByte ⟨group, .body⟩ (0x21 + d) = pushDigit ⟨group, .body⟩ d := by
  obtain ⟨hblank, hmark, hzero, hrange, hsub⟩ := char_digit d hd
  have hstart : ¬(0x21 + d = 0x3C ∧ Marker.body = .start) := fun h => nomatch h.2
  simp only [readByte, readBody]
  rw [if_neg hblank, if_neg hstart, if_neg hmark, if_neg hzero, if_pos hrange, hsub]

theorem run_readByte_short {group ds : Bytes} (hds : AreDigits ds)
    (hlength : group.length + ds.length ≤ 4) :
    (Step.run readByte ⟨group, .body⟩ (ds.map (0x21 + ·))).Yields ⟨group ++ ds, .body⟩ [] := by
  induction ds generalizing group with
  | nil =>
    rw [List.append_nil]
    exact Step.yields_quiet _
  | cons d ds ih =>
    rw [List.length_cons] at hlength
    have hfirst : (readByte ⟨group, .body⟩ (0x21 + d)).Yields ⟨group ++ [d], .body⟩ [] := by
      rw [readByte_digit (hds d List.mem_cons_self), pushDigit_of_short d (by dsimp only; omega)]
      exact Step.yields_quiet _
    have hroom : (group ++ [d]).length + ds.length ≤ 4 := by
      rw [List.length_append, List.length_singleton]
      omega
    have hrest := ih (fun e he => hds e (List.mem_cons_of_mem d he)) hroom
    rw [List.append_assoc, List.singleton_append] at hrest
    rw [List.map_cons, Step.run_cons]
    exact hfirst.andThen hrest

/-- From one group to the next, `text` is read as `data`. -/
def ReadsAs (text data : Bytes) : Prop :=
  (Step.run readByte ⟨[], .body⟩ text).Yields ⟨[], .body⟩ data

theorem readsAs_digits {group : Bytes} (hlength : group.length = 4) :
    ReadsAs (digits 5 (Bytes.toNat group)) group := by
  have hlt : Bytes.toNat group < 256 ^ 4 := by
    rw [← hlength]
    exact Bytes.toNat_lt group
  obtain ⟨ds, d, hds⟩ : ∃ ds d, baseDigits 5 (Bytes.toNat group) = ds ++ [d] := ⟨_, _, rfl⟩
  have hall := areDigits_baseDigits 5 (Bytes.toNat group)
  have hfive := length_baseDigits 5 (Bytes.toNat group)
  rw [hds] at hall hfive
  rw [List.length_append, List.length_singleton] at hfive
  have hvalue : value (ds ++ [d]) = Bytes.toNat group := by
    rw [← hds]
    exact value_baseDigits (by omega)
  have hshort : (Step.run readByte ⟨[], .body⟩ (ds.map (0x21 + ·))).Yields ⟨ds, .body⟩ [] :=
    run_readByte_short (fun e he => hall e (List.mem_append_left _ he)) (by
      rw [List.length_nil]
      omega)
  have hbytes : Bytes.ofNat 4 (Bytes.toNat group) = group := by
    rw [← hlength]
    exact Bytes.ofNat_toNat group
  have hlast : (readByte ⟨ds, .body⟩ (0x21 + d)).Yields ⟨[], .body⟩ group := by
    have hfull : (ds ++ [d]).length = 5 := by
      rw [List.length_append, List.length_singleton]
      omega
    rw [readByte_digit (hall d (List.mem_append_right _ (List.mem_singleton_self d)))]
    simp only [pushDigit]
    rw [if_pos hfull, decodeGroup_of_lt (by rw [hvalue]; exact hlt), hvalue, hbytes]
    exact Step.yields_write _ _
  rw [ReadsAs, digits_eq_map, hds, List.map_append]
  exact hshort.run_append hlast.run_singleton

theorem readsAs_encodeGroup {group : Bytes} (hlength : group.length = 4) :
    ReadsAs (encodeGroup group) group := by
  unfold encodeGroup
  split
  next hzero =>
    rw [hzero]
    exact Step.Yields.run_singleton (Step.yields_write _ _)
  next => exact readsAs_digits hlength

/-- The characters of a last group that is not whole. -/
def shortText (group : Bytes) : Bytes :=
  (digits 5 (Bytes.toNat (group ++ List.replicate (4 - group.length) 0))).take (group.length + 1)

theorem toNat_replicate_zero (n : Nat) : Bytes.toNat (List.replicate n 0) = 0 := by
  induction n with
  | zero => rfl
  | succ n ih =>
    rw [List.replicate_succ', Bytes.toNat_append_singleton, ih]
    rfl

/-- Filled up with the highest digit, the first digits of a padded group are a little more than the
group, by less than shows in its bytes. -/
theorem value_filled {group : Bytes} {n : Nat} (hfour : group.length + n = 4) :
    Bytes.toNat group * 256 ^ n ≤
        value ((baseDigits 5 (Bytes.toNat group * 256 ^ n)).take (group.length + 1) ++
          List.replicate n 84) ∧
      value ((baseDigits 5 (Bytes.toNat group * 256 ^ n)).take (group.length + 1) ++
        List.replicate n 84) < (Bytes.toNat group + 1) * 256 ^ n ∧
      (Bytes.toNat group + 1) * 256 ^ n ≤ 256 ^ 4 := by
  obtain ⟨N, hN⟩ : ∃ N, N = Bytes.toNat group * 256 ^ n := ⟨_, rfl⟩
  have hbelow : (Bytes.toNat group + 1) * 256 ^ n ≤ 256 ^ 4 := by
    rw [← hfour, Nat.pow_add]
    exact Nat.mul_le_mul_right _ (Bytes.toNat_lt group)
  have hone : 0 < 85 ^ n := Nat.pow_pos (by decide)
  have hsmaller : 85 ^ n ≤ 256 ^ n := Nat.pow_le_pow_left (by decide) n
  have hfive := length_baseDigits 5 N
  have hgap : (baseDigits 5 N).length - (group.length + 1) = n := by omega
  rw [Nat.add_mul, Nat.one_mul, ← hN] at hbelow ⊢
  have hvalue : value (baseDigits 5 N) = N := value_baseDigits (by omega)
  obtain ⟨hlow, hhigh⟩ := value_take (areDigits_baseDigits 5 N) (group.length + 1)
  rw [hvalue, hgap] at hlow hhigh
  exact ⟨by omega, by omega, hbelow⟩

/-- A short group at the end gives its bytes back. -/
theorem closeGroup_shortText {group : Bytes} (hpos : group ≠ []) (hlength : group.length < 4) :
    ∃ ds : Bytes, shortText group = ds.map (0x21 + ·) ∧ AreDigits ds ∧
      ds.length = group.length + 1 ∧
      ∀ marker, (closeGroup ⟨ds, marker⟩).Yields ⟨[], marker⟩ group := by
  obtain ⟨n, hn⟩ : ∃ n, n = 4 - group.length := ⟨_, rfl⟩
  obtain ⟨N, hN⟩ : ∃ N, N = Bytes.toNat group * 256 ^ n := ⟨_, rfl⟩
  have hpadded : Bytes.toNat (group ++ List.replicate (4 - group.length) 0) = N := by
    rw [Bytes.toNat_append, toNat_replicate_zero, Nat.add_zero, List.length_replicate, hN, hn]
  have hpos' := List.length_pos_iff.2 hpos
  have hfour : group.length + n = 4 := by omega
  obtain ⟨hlow, hhigh, hbelow⟩ := value_filled hfour
  rw [← hN] at hlow hhigh
  have htake : ((baseDigits 5 N).take (group.length + 1)).length = group.length + 1 := by
    rw [List.length_take, length_baseDigits]
    omega
  generalize hds : (baseDigits 5 N).take (group.length + 1) = ds at hlow hhigh htake
  refine ⟨ds, ?_, ?_, htake, ?_⟩
  · rw [shortText, hpadded, digits_eq_map, ← hds, List.map_take]
  · rw [← hds]
    exact (areDigits_baseDigits 5 N).take _
  · intro marker
    have hquotient : value (ds ++ List.replicate n 84) / 256 ^ n = Bytes.toNat group := by
      rw [Nat.div_eq_iff (Nat.pow_pos (by decide)), ← hN]
      rw [Nat.add_mul, Nat.one_mul, ← hN] at hhigh
      omega
    have hbytes : (Bytes.ofNat 4 (value (ds ++ List.replicate n 84))).take group.length = group := by
      rw [← hfour, Bytes.take_ofNat, hquotient, Bytes.ofNat_toNat]
    have hlt : value (ds ++ List.replicate n 84) < 1 <<< 32 := Nat.lt_of_lt_of_le hhigh hbelow
    have hfill : 5 - ds.length = n := by omega
    have hsize : ds.length - 1 = group.length := by omega
    rw [← hfill] at hlt hbytes
    rw [← hsize] at hbytes
    match ds, htake with
    | a :: b :: rest, _ =>
      simp only [closeGroup]
      rw [decodeGroup_of_lt hlt]
      simp only []
      rw [hbytes]
      exact Step.yields_write _ _
    | [_], htake => exact absurd htake (by simpa using hpos)

/-- The text of the data, without the end mark. -/
def textOf : Bytes → Bytes
  | a :: b :: c :: d :: rest => encodeGroup [a, b, c, d] ++ textOf rest
  | short => if short = [] then [] else shortText short

theorem textOf_append {group : Bytes} (hlength : group.length = 4) (rest : Bytes) :
    textOf (group ++ rest) = encodeGroup group ++ textOf rest := by
  match group, hlength with
  | [a, b, c, d], _ => rw [List.cons_append, List.cons_append, List.cons_append,
      List.cons_append, List.nil_append, textOf]

theorem length_lt_four {short : Bytes}
    (h : ∀ a b c d rest, short = a :: b :: c :: d :: rest → False) : short.length < 4 := by
  match short, h with
  | [], _ | [_], _ | [_, _], _ | [_, _, _], _ => simp
  | a :: b :: c :: d :: rest, h => exact (h a b c d rest rfl).elim

theorem textOf_short {group : Bytes} (hlength : group.length < 4) :
    textOf group = if group = [] then [] else shortText group := by
  match group, hlength with
  | [], _ | [_], _ | [_, _], _ | [_, _, _], _ => rfl

/-- Encoding writes the text of all the data and the end mark. -/
theorem encoded_eq {c : Ascii85} (hc : c.group.length < 4) (data : Bytes) :
    encoded c data = some (textOf (c.group ++ data) ++ eod) := by
  induction data generalizing c with
  | nil =>
    rw [encoded, Step.run_nil, Step.quiet_andThen, List.append_nil, textOf_short hc, endEncode]
    by_cases hnil : c.group = []
    · rw [if_pos hnil, if_pos hnil]
      exact Step.output?_write _ _
    · rw [if_neg hnil, if_neg hnil]
      simp [Step.output?, Step.bytes, shortText]
  | cons b data ih =>
    rw [encoded, Step.run_cons, Step.andThen_assoc]
    by_cases hfull : (c.group ++ [b]).length = 4
    · have hadd : (addByte c b).Yields { c with group := [] } (encodeGroup (c.group ++ [b])) := by
        rw [addByte, if_pos hfull]
        exact Step.yields_write _ _
      rw [Step.output?_andThen, hadd.output?, hadd.2.1, Option.bind_some]
      have hrest := ih (c := { c with group := [] }) (Nat.zero_lt_succ 3)
      rw [encoded, List.nil_append] at hrest
      rw [hrest, Option.map_some, ← List.append_assoc, ← textOf_append hfull, List.append_assoc,
        List.singleton_append]
    · have hadd : (addByte c b).Yields { c with group := c.group ++ [b] } [] := by
        rw [addByte, if_neg hfull]
        exact Step.yields_quiet _
      rw [List.length_append, List.length_singleton] at hfull
      have hrest := ih (c := { c with group := c.group ++ [b] }) (by
        rw [List.length_append, List.length_singleton]
        omega)
      rw [Step.output?_andThen, hadd.output?, hadd.2.1, Option.bind_some]
      rw [encoded, List.append_assoc, List.singleton_append] at hrest
      rw [hrest, Option.map_some, List.nil_append]

/-- Reading the text and the end mark from the body on. -/
theorem decoded_body (data : Bytes) :
    decoded ⟨[], .body⟩ (textOf data ++ eod) = some data := by
  have hend (ds out : Bytes)
      (hclose : ∀ marker, (closeGroup ⟨ds, marker⟩).Yields ⟨[], marker⟩ out) :
      decoded ⟨ds, .body⟩ eod = some out := by
    have hfirst : (readByte ⟨ds, .body⟩ 0x7E).Yields ⟨ds, .closing⟩ [] := Step.yields_quiet _
    have hsecond : (readByte ⟨ds, .closing⟩ 0x3E).Yields ⟨[], .done⟩ out := hclose .done
    have hread := hfirst.run_singleton.run_append hsecond.run_singleton
    have hclosed := hread.andThen (f := endDecode) (Step.yields_quiet _)
    rw [List.append_nil, List.nil_append] at hclosed
    exact hclosed.output?
  have hfront {s t : Ascii85} {text out : Bytes} (rest : Bytes)
      (h : (Step.run readByte s text).Yields t out) :
      decoded s (text ++ rest) = (decoded t rest).map (out ++ ·) := by
    rw [decoded, Step.run_append, Step.andThen_assoc, Step.output?_andThen, h.output?, h.2.1]
    rfl
  fun_induction textOf data with
  | case1 a b c d rest ih =>
    have hgroup : ReadsAs (encodeGroup [a, b, c, d]) [a, b, c, d] := readsAs_encodeGroup rfl
    rw [List.append_assoc, hfront _ hgroup, ih]
    rfl
  | case2 => exact hend [] [] fun marker => Step.yields_quiet _
  | case3 short hshort hne =>
    have hlength := length_lt_four hshort
    obtain ⟨ds, htext, hds, hcount, hclose⟩ := closeGroup_shortText hne hlength
    have hread : (Step.run readByte ⟨[], .body⟩ (ds.map (0x21 + ·))).Yields ⟨ds, .body⟩ [] :=
      run_readByte_short hds (by
        rw [List.length_nil]
        omega)
    rw [htext, hfront _ hread, hend ds short hclose]
    rfl

/-- At the start of the data, nothing but a whole opening mark is read differently. -/
theorem decoded_start {b : UInt8} {rest : Bytes} (hblank : ¬isPdfBlank b = true)
    (hopen : b = 0x3C → ∃ d tail, rest = d :: tail ∧ d ≠ 0x7E) :
    decoded {} (b :: rest) = decoded ⟨[], .body⟩ (b :: rest) := by
  by_cases hmark : b = 0x3C
  · obtain ⟨d, tail, rfl, hd⟩ := hopen hmark
    subst hmark
    have hopening : readByte ⟨[], .opening⟩ d =
        (pushDigit ⟨[], .body⟩ (0x3C - 0x21)).andThen (readBody · d) := if_neg hd
    have hpush : pushDigit ⟨[], .body⟩ (0x3C - 0x21) = .quiet ⟨[0x1B], .body⟩ := rfl
    have hfirst : readByte {} 0x3C = .quiet ⟨[], .opening⟩ := rfl
    have hdigit : readByte ⟨[], .body⟩ 0x3C = .quiet ⟨[0x1B], .body⟩ := rfl
    rw [hpush, Step.quiet_andThen] at hopening
    rw [decoded, decoded, Step.run_cons, Step.run_cons, hfirst, hdigit, Step.quiet_andThen,
      Step.quiet_andThen, Step.run_cons, Step.run_cons, hopening]
    rfl
  · have hsame : readByte {} b = readByte ⟨[], .body⟩ b := by
      simp only [readByte, readBody, hmark, false_and]
      rw [if_neg hblank, if_neg hblank]
    rw [decoded, decoded, Step.run_cons, Step.run_cons, hsame]

theorem decoded_start_digits {ds : Bytes} (hds : AreDigits ds) (hlength : 2 ≤ ds.length)
    (rest : Bytes) : decoded {} (ds.map (0x21 + ·) ++ rest) =
      decoded ⟨[], .body⟩ (ds.map (0x21 + ·) ++ rest) := by
  match ds, hlength with
  | d :: d' :: ds, _ =>
    obtain ⟨hblank, -⟩ := char_digit d (hds d List.mem_cons_self)
    obtain ⟨-, hmark, -⟩ :=
      char_digit d' (hds d' (List.mem_cons_of_mem d List.mem_cons_self))
    exact decoded_start hblank fun _ => ⟨_, _, rfl, hmark⟩

/-- Reading what was written gives back the data. -/
theorem decoded_encoded {c : Ascii85} (hc : c.group = []) (data : Bytes) :
    ∃ out, encoded c data = some out ∧ decoded {} out = some data := by
  have hlength : c.group.length < 4 := by
    rw [hc]
    decide
  refine ⟨_, encoded_eq hlength data, ?_⟩
  rw [hc, List.nil_append]
  refine Eq.trans ?_ (decoded_body data)
  fun_cases textOf data with
  | case1 a b c d rest =>
    rw [List.append_assoc]
    unfold encodeGroup
    split
    next => exact decoded_start (by decide) nofun
    next =>
      rw [digits_eq_map]
      refine decoded_start_digits (areDigits_baseDigits _ _) ?_ _
      rw [length_baseDigits]
      decide
  | case2 => exact decoded_start (by decide) nofun
  | case3 _ hshort hne =>
    have hlength := length_lt_four hshort
    obtain ⟨ds, htext, hds, hcount, -⟩ := closeGroup_shortText hne hlength
    have hpos := List.length_pos_iff.2 hne
    rw [htext]
    exact decoded_start_digits hds (by omega) _

end PdfStream.Ascii85
