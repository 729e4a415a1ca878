/-
**Chains of trusted proxies.**

Every proxy adds an entry that names the address it was reached from, on the last line or on a line
of its own. What the client sent stays ahead of these entries.

* `Relayed` — the header lines after a chain of proxies.
* `readLine_entry` — an entry that stands last in its line is read first.
* `client_of_relayed` — **the client's address is found behind every chain of trusted proxies,
  whatever the client sent.**
-/

import Wok.Ws.Element

namespace Wok.Ws

open Wok.Library List

/-! ### Proxies -/

/-- The lines after an entry was added, at the end of the last line or on a new line. -/
inductive Adds (entry : Bytes) : List Bytes → List Bytes → Prop
  | appended (lines : List Bytes) (last : Bytes) :
    Adds entry (lines ++ [last]) (lines ++ [last ++ 44 :: entry])
  | newLine (lines : List Bytes) : Adds entry lines (lines ++ [entry])

/-- One proxy's addition: an entry that names the address it was reached from, with white space
around it. -/
def Appends (net : AddressText) (form : ListForm) (reachedFrom : IpAddr)
    (lines lines' : List Bytes) : Prop :=
  ∃ before entry after, IsSpace before ∧ IsSpace after ∧ Entry net form reachedFrom entry ∧
    Adds (before ++ (entry ++ after)) lines lines'

/-- The lines `lines'` that reach the relay from `peer` when the client `ip` sent `lines` to the
first of a chain of proxies. -/
inductive Relayed (net : AddressText) (form : ListForm) (isTrusted : IpAddr → Bool) (ip : IpAddr)
    (lines : List Bytes) : (peer : IpAddr) → (lines' : List Bytes) → Prop
  | first {proxy : IpAddr} {lines' : List Bytes} (trusted : isTrusted proxy = true)
    (appends : Appends net form ip lines lines') : Relayed net form isTrusted ip lines proxy lines'
  | next {previous proxy : IpAddr} {lines' lines'' : List Bytes} (trusted : isTrusted proxy = true)
    (earlier : Relayed net form isTrusted ip lines previous lines')
    (appends : Appends net form previous lines' lines'') :
    Relayed net form isTrusted ip lines proxy lines''

/-! ### Reading a chain -/

section Chain

variable {net : AddressText} {form : ListForm} {isTrusted : IpAddr → Bool} {ip : IpAddr}
variable {lines lines' : List Bytes}

theorem readLine_eq (text : Str) : readLine net form isTrusted text
    = match addressOf net form (splitLast form text).1 with
      | none => .error (.unparsed (splitLast form text).1)
      | some ip =>
        if !isTrusted ip then .error (.client ip)
        else
          match (splitLast form text).2 with
          | none => .ok (.client ip)
          | some ahead => readLine net form isTrusted ahead := by
  rw [readLine]
  split
  rename_i entry ahead split
  have first : (splitLast form text).1 = entry := by rw [split]
  have second : (splitLast form text).2 = ahead := by rw [split]
  rw [first, second]
  cases addressOf net form entry with
  | none => rfl
  | some ip =>
    cases ahead with
    | none => rfl
    | some ahead => rfl

/-- The entry at the end of a line decides, when it names an address that is not trusted. -/
theorem readLine_entry (lawful : net.Lawful) {before entry after : Bytes}
    (spaceBefore : IsSpace before) (spaceAfter : IsSpace after)
    (names : Entry net form ip entry) (ahead : Bytes) :
    readLine net form isTrusted (fromUtf8Lossy (before ++ (entry ++ after)))
        = (if !isTrusted ip then .error (.client ip) else .ok (.client ip)) ∧
      readLine net form isTrusted (fromUtf8Lossy (ahead ++ 44 :: (before ++ (entry ++ after))))
        = (if !isTrusted ip then .error (.client ip)
          else readLine net form isTrusted (fromUtf8Lossy ahead)) := by
  obtain ⟨text, reads, found, address⟩ := names.read lawful
  obtain ⟨first, firstReads, firstOws⟩ := spaceBefore.readsAs
  obtain ⟨last, lastReads, lastOws⟩ := spaceAfter.readsAs
  have line := (firstReads.append (reads.append lastReads)).whole
  obtain ⟨alone, appended⟩ := found first last firstOws lastOws
  have comma : asciiChar 44 = ',' := by decide
  refine ⟨?_, ?_⟩
  · rw [line, readLine_eq, alone]
    simp only [address]
  · rw [fromUtf8Lossy_append (by decide), line, comma, readLine_eq, appended]
    simp only [address]

theorem readLines_append (first : Forwarded) (lines : List Bytes) (line : Bytes) :
    readLines net form isTrusted first (lines ++ [line])
      = (readLine net form isTrusted (fromUtf8Lossy line)).bind fun found =>
          readLines net form isTrusted found lines := by
  rw [readLines, reverse_append]
  rfl

theorem Relayed.trusted {peer : IpAddr} (relayed : Relayed net form isTrusted ip lines peer lines') :
    isTrusted peer = true := by
  cases relayed with
  | first trusted _ => exact trusted
  | next trusted _ _ => exact trusted

theorem readLines_first (lawful : net.Lawful) (untrusted : isTrusted ip = false)
    (appends : Appends net form ip lines lines') (first : Forwarded) :
    readLines net form isTrusted first lines' = .error (.client ip) := by
  obtain ⟨before, entry, after, spaceBefore, spaceAfter, names, adds⟩ := appends
  cases adds with
  | appended lines last =>
    rw [readLines_append, (readLine_entry lawful spaceBefore spaceAfter names last).2, untrusted]
    rfl
  | newLine lines =>
    rw [readLines_append, (readLine_entry lawful spaceBefore spaceAfter names []).1, untrusted]
    rfl

/-- A later proxy's entry leaves the answer as it is. -/
theorem readLines_next (lawful : net.Lawful) {previous : IpAddr}
    (trusted : isTrusted previous = true) {answer : Forwarded}
    (earlier : ∀ first, readLines net form isTrusted first lines = .error answer)
    (appends : Appends net form previous lines lines') (first : Forwarded) :
    readLines net form isTrusted first lines' = .error answer := by
  obtain ⟨before, entry, after, spaceBefore, spaceAfter, names, adds⟩ := appends
  cases adds with
  | appended lines last =>
    rw [readLines_append, (readLine_entry lawful spaceBefore spaceAfter names last).2, trusted]
    have same := earlier first
    rw [readLines_append] at same
    exact same
  | newLine lines =>
    rw [readLines_append, (readLine_entry lawful spaceBefore spaceAfter names []).1, trusted]
    exact earlier _

theorem readLines_relayed (lawful : net.Lawful) (untrusted : isTrusted ip = false) {peer : IpAddr}
    (relayed : Relayed net form isTrusted ip lines peer lines') (first : Forwarded) :
    readLines net form isTrusted first lines' = .error (.client ip) := by
  induction relayed generalizing first with
  | first trusted appends => exact readLines_first lawful untrusted appends first
  | next trusted earlier appends ih =>
    exact readLines_next lawful earlier.trusted ih appends first

end Chain

/-- The client's address is read from what a chain of proxies passed on. -/
theorem client_eq {net : AddressText} (lawful : net.Lawful) {name : Str} {trusted : List IpRange}
    {ip peer : IpAddr} {lines lines' : List Bytes} (untrusted : isTrusted trusted ip = false)
    (relayed : Relayed net (formOf name) (isTrusted trusted) ip lines peer lines') :
    client net lines' name peer trusted = .client ip := by
  rw [client, if_neg, readLines_relayed lawful untrusted relayed]
  rw [relayed.trusted]
  simp

/-- **Behind a chain of trusted proxies the client's address is found exactly**, whatever lines the
client sent ahead, and requests that differ only in these get the same address. -/
theorem client_of_relayed {net : AddressText} (lawful : net.Lawful) (name : Str)
    (trusted : List IpRange) {ip peer : IpAddr} {lines lines' : List Bytes}
    (untrusted : isTrusted trusted ip = false)
    (relayed : Relayed net (formOf name) (isTrusted trusted) ip lines peer lines') :
    client net lines' name peer trusted = .client ip ∧
      ∀ other other' peer', Relayed net (formOf name) (isTrusted trusted) ip other peer' other' →
        client net other' name peer' trusted = client net lines' name peer trusted := by
  refine ⟨client_eq lawful untrusted relayed, fun other other' peer' again => ?_⟩
  rw [client_eq lawful untrusted relayed, client_eq lawful untrusted again]

/-! ### A chain of two proxies -/

variable {separator : Char}

/-- Numbers in decimal with separators between them. -/
def printGroups (separator : Char) (groups : List Nat) : Str :=
  [separator].intercalate (groups.map (Nat.toDigits 10))

theorem toDigits_injective : Function.Injective (Nat.toDigits 10) := by
  intro m n same
  have back := congrArg (fun s => Nat.ofDigitChars 10 s 0) same
  simpa [Nat.ofDigitChars_toDigits] using back

theorem printGroups_injective (apart : separator.isDigit = false) {groups others : List Nat}
    (some : groups ≠ []) (someOther : others ≠ [])
    (same : printGroups separator groups = printGroups separator others) : groups = others := by
  have absent : ∀ numbers : List Nat, ∀ text ∈ numbers.map (Nat.toDigits 10), separator ∉ text := by
    intro numbers text listed inside
    obtain ⟨n, _, rfl⟩ := mem_map.mp listed
    exact ne_of_test (Nat.isDigit_of_mem_toDigits (by decide) (by decide) inside) apart rfl
  have split := congrArg (List.splitOn separator) same
  rw [printGroups, printGroups, splitOn_intercalate _ (absent _) (by simpa using some),
    splitOn_intercalate _ (absent _) (by simpa using someOther)] at split
  exact map_injective_iff.mpr toDigits_injective split

theorem printGroups_chars {groups : List Nat} :
    ∀ c ∈ printGroups separator groups, c.isDigit = true ∨ c = separator := by
  intro c member
  unfold printGroups at member
  induction groups with
  | nil => cases member
  | cons n groups ih =>
    cases groups with
    | nil =>
      have single : [separator].intercalate ([n].map (Nat.toDigits 10)) = Nat.toDigits 10 n := by
        simp [List.intercalate]
      rw [single] at member
      exact .inl (Nat.isDigit_of_mem_toDigits (by decide) (by decide) member)
    | cons m groups =>
      have several : [separator].intercalate ((n :: m :: groups).map (Nat.toDigits 10))
          = Nat.toDigits 10 n ++ separator ::
            [separator].intercalate ((m :: groups).map (Nat.toDigits 10)) := by
        simp [List.intercalate]
      rw [several, mem_append, mem_cons] at member
      rcases member with digits | rfl | later
      · exact .inl (Nat.isDigit_of_mem_toDigits (by decide) (by decide) digits)
      · exact .inr rfl
      · exact ih later

theorem mem_printGroups (m n : Nat) (groups : List Nat) :
    separator ∈ printGroups separator (m :: n :: groups) := by
  have several : printGroups separator (m :: n :: groups)
      = Nat.toDigits 10 m ++ separator :: printGroups separator (n :: groups) := by
    simp [printGroups, List.intercalate]
  rw [several]
  exact mem_append_right _ (.head _)

/-- `a.b.c.d`. -/
def dottedV4 (bits : BitVec 32) : Str :=
  let n := bits.toNat
  printGroups '.' [n / 2 ^ 24, n / 2 ^ 16 % 2 ^ 8, n / 2 ^ 8 % 2 ^ 8, n % 2 ^ 8]

/-- Eight groups, in decimal. -/
def groupedV6 (bits : BitVec 128) : Str :=
  let n := bits.toNat
  printGroups ':' [n / 2 ^ 112, n / 2 ^ 96 % 2 ^ 16, n / 2 ^ 80 % 2 ^ 16, n / 2 ^ 64 % 2 ^ 16,
    n / 2 ^ 48 % 2 ^ 16, n / 2 ^ 32 % 2 ^ 16, n / 2 ^ 16 % 2 ^ 16, n % 2 ^ 16]

theorem dottedV4_injective : Function.Injective dottedV4 := by
  intro a b same
  have groups := printGroups_injective (by decide) (by simp) (by simp) same
  simp only [List.cons.injEq] at groups
  apply BitVec.eq_of_toNat_eq
  omega

theorem groupedV6_injective : Function.Injective groupedV6 := by
  intro a b same
  have groups := printGroups_injective (by decide) (by simp) (by simp) same
  simp only [List.cons.injEq] at groups
  apply BitVec.eq_of_toNat_eq
  omega

def printIp : IpAddr → Str
  | .v4 bits => dottedV4 bits
  | .v6 bits => groupedV6 bits

def printIpPort : IpAddr × Str → Str
  | (.v4 bits, port) => dottedV4 bits ++ ':' :: port
  | (.v6 bits, port) => '[' :: groupedV6 bits ++ ']' :: ':' :: port

/-- Address texts that are parsed by looking for the address that is printed so. -/
noncomputable def sampleNet : AddressText where
  printV4 := dottedV4
  printV6 := groupedV6
  parseV4 := Function.partialInv dottedV4
  parseV6 := Function.partialInv groupedV6
  parseIp := Function.partialInv printIp
  parseSocket := fun text => (Function.partialInv printIpPort text).map Prod.fst

theorem sampleNet_print (ip : IpAddr) : sampleNet.print ip = printIp ip := by
  cases ip <;> rfl

theorem sampleNet_printSocket (port : Str) (ip : IpAddr) :
    sampleNet.printSocket port ip = printIpPort (ip, port) := by
  cases ip <;> rfl

theorem not_mem_dottedV4 {c : Char} (listed : c ∈ [':', '[']) (bits : BitVec 32) :
    c ∉ dottedV4 bits := fun member => by
  have apart : ∀ c ∈ [':', '['], c.isDigit = false ∧ c ≠ '.' := all_iff_forall_prop.mp (by decide)
  rcases printGroups_chars _ member with digit | same
  · exact absurd digit (by simp [(apart c listed).1])
  · exact (apart c listed).2 same

theorem not_mem_groupedV6 {c : Char} (listed : c ∈ ['[', ']', '.']) (bits : BitVec 128) :
    c ∉ groupedV6 bits := fun member => by
  have apart : ∀ c ∈ ['[', ']', '.'], c.isDigit = false ∧ c ≠ ':' := all_iff_forall_prop.mp (by decide)
  rcases printGroups_chars _ member with digit | same
  · exact absurd digit (by simp [(apart c listed).1])
  · exact (apart c listed).2 same

theorem printIp_injective : Function.Injective printIp := by
  have mixed : ∀ a b, dottedV4 a ≠ groupedV6 b := by
    intro a b same
    have colon : ':' ∈ groupedV6 b := mem_printGroups _ _ _
    exact not_mem_dottedV4 (by decide) a (same ▸ colon)
  intro a b same
  cases a with
  | v4 a =>
    cases b with
    | v4 b => exact congrArg _ (dottedV4_injective same)
    | v6 b => exact absurd same (mixed a b)
  | v6 a =>
    cases b with
    | v4 b => exact absurd same.symm (mixed b a)
    | v6 b => exact congrArg _ (groupedV6_injective same)

theorem printIpPort_injective : Function.Injective printIpPort := by
  have mixed : ∀ (a : BitVec 32) (port rest : Str), dottedV4 a ++ ':' :: port ≠ '[' :: rest := by
    intro a port rest same
    cases text : dottedV4 a with
    | nil =>
      rw [text] at same
      cases same
    | cons c tail =>
      have first : c = '[' := by
        rw [text] at same
        exact (List.cons.inj same).1
      refine not_mem_dottedV4 (c := c) (by simp [first]) a ?_
      rw [text]
      exact mem_cons_self ..
  have closing : ∀ bits, ']' ∉ groupedV6 bits := not_mem_groupedV6 (by decide)
  have colon : ∀ bits, ':' ∉ dottedV4 bits := not_mem_dottedV4 (by decide)
  rintro ⟨a, port⟩ ⟨b, other⟩ same
  cases a with
  | v4 a =>
    cases b with
    | v4 b =>
      have split := congrArg (splitOnce ':') same
      rw [printIpPort, printIpPort, splitOnce_append (colon a), splitOnce_append (colon b)] at split
      obtain ⟨bits, ports⟩ := Prod.mk.inj (Option.some.inj split)
      rw [dottedV4_injective bits, ports]
    | v6 b => exact absurd same (mixed a port _)
  | v6 a =>
    cases b with
    | v4 b => exact absurd same.symm (mixed b other _)
    | v6 b =>
      have inner : groupedV6 a ++ ']' :: ':' :: port = groupedV6 b ++ ']' :: ':' :: other :=
        (List.cons.inj same).2
      have split := congrArg (splitOnce ']') inner
      rw [splitOnce_append (closing a), splitOnce_append (closing b)] at split
      obtain ⟨bits, ports⟩ := Prod.mk.inj (Option.some.inj split)
      rw [groupedV6_injective bits, (List.cons.inj ports).2]

theorem printIp_ne_printIpPort (other ip : IpAddr) (port : Str) :
    printIp other ≠ printIpPort (ip, port) := by
  intro same
  cases ip with
  | v4 bits =>
    have colon : ':' ∈ printIpPort (.v4 bits, port) := by simp [printIpPort]
    have dot : '.' ∈ printIpPort (.v4 bits, port) :=
      mem_append_left _ (mem_printGroups _ _ _)
    rw [← same] at colon dot
    cases other with
    | v4 other => exact not_mem_dottedV4 (by decide) other colon
    | v6 other => exact not_mem_groupedV6 (by decide) other dot
  | v6 bits =>
    have bracket : '[' ∈ printIpPort (.v6 bits, port) := mem_cons_self ..
    rw [← same] at bracket
    cases other with
    | v4 other => exact not_mem_dottedV4 (by decide) other bracket
    | v6 other => exact not_mem_groupedV6 (by decide) other bracket

theorem sampleNet_lawful : sampleNet.Lawful where
  parseV4_print := Function.partialInv_left dottedV4_injective
  parseV6_print := Function.partialInv_left groupedV6_injective
  parseIp_print := by
    intro ip
    rw [sampleNet_print]
    exact Function.partialInv_left printIp_injective ip
  parseSocket_print := by
    intro port ip _
    have found := Function.partialInv_left printIpPort_injective (ip, port)
    rw [sampleNet_printSocket]
    show (Function.partialInv printIpPort (printIpPort (ip, port))).map Prod.fst = some ip
    rw [found]
    rfl
  parseIp_printSocket := by
    intro port ip _
    rw [sampleNet_printSocket]
    show Function.partialInv printIp (printIpPort (ip, port)) = none
    apply Option.eq_none_iff_forall_ne_some.mpr
    intro other found
    exact printIp_ne_printIpPort other ip port
      ((printIp_injective.isPartialInv other _).mp found)
  printV4_chars := fun _ c member => printGroups_chars c member
  printV6_chars := by
    intro bits c member
    rcases printGroups_chars c member with digit | rfl
    · exact .inl digit
    · exact .inr (by decide)
  print_ne := by
    intro ip empty
    have some : ∃ c, c ∈ printIp ip := by
      cases ip with
      | v4 bits => exact ⟨'.', mem_printGroups _ _ _⟩
      | v6 bits => exact ⟨':', mem_printGroups _ _ _⟩
    rw [← sampleNet_print, empty] at some
    simp at some

/-- `203.0.113.7`. -/
def sampleClient : IpAddr := .v4 0xcb007107

/-- `10.0.0.1`, behind `10.0.0.2`. -/
def sampleProxy : IpAddr := .v4 0x0a000001

def samplePeer : IpAddr := .v4 0x0a000002

/-- `10.0.0.0/8`. -/
def sampleRange : IpRange where
  network := .v4 0x0a000000
  prefixLen := 8
  network_masked := by decide
  network_unmapped := by decide
  prefixLen_ne := by decide

/-- The client's own line opens a quoted string and ends in an escape. -/
def sampleLines : List Bytes := [asciiBytes "for=\"198.51.100.9, \\".toList]

/-- `host="a, b"`. -/
def sampleHost : Bytes := asciiBytes "host".toList ++ 61 :: 34 :: (asciiBytes "a, b".toList ++ [34])

def sampleEntry (value : Str) : Bytes :=
  [].flatMap (· ++ [59]) ++ (asciiBytes ("For".toList ++ '=' :: value)
    ++ [sampleHost].flatMap (59 :: ·))

theorem sampleHost_other : OtherPart sampleHost :=
  .parameter ⟨by decide, all_iff_forall_prop.mp (by decide)⟩ (by decide) (.quoted (by decide))

/-- An element with the `host` after its `for`. -/
def sampleElement {ip : IpAddr} {value : Str} (names : ForValue sampleNet ip value) :
    Element sampleNet ip (sampleEntry value) where
  before := []
  after := [sampleHost]
  name := "For".toList
  value := value
  others := by
    intro part member
    rw [mem_singleton.mp member]
    exact sampleHost_other
  name_token := ⟨by decide, all_iff_forall_prop.mp (by decide)⟩
  name_for := by decide
  names := names
  written := rfl

theorem sample_relayed : ∃ lines', Relayed sampleNet (formOf "Forwarded".toList)
    (isTrusted [sampleRange]) sampleClient sampleLines samplePeer lines' := by
  have node : ∀ bits, Node sampleNet (.v4 bits) (dottedV4 bits ++ []) := Node.v4 .none
  have space : IsSpace [32] := by
    intro b member
    exact .inl (mem_singleton.mp member)
  have first : Appends sampleNet .rfc7239 sampleClient sampleLines _ :=
    ⟨[32], _, [], space, by simp [IsSpace], ⟨sampleElement (.bare (node _))⟩, .appended [] _⟩
  have second : ∀ lines, ∃ lines', Appends sampleNet .rfc7239 sampleProxy lines lines' :=
    fun lines => ⟨_, [], _, [], by simp [IsSpace], by simp [IsSpace],
      ⟨sampleElement (.quoted (node _) [true])⟩, .newLine lines⟩
  obtain ⟨lines', appends⟩ := second _
  exact ⟨lines', .next (by decide) (.first (by decide) first) appends⟩

theorem client_of_relayed_sample : isTrusted [sampleRange] sampleClient = false ∧
    ∃ lines', client sampleNet lines' "Forwarded".toList samplePeer [sampleRange]
      = .client sampleClient := by
  obtain ⟨lines', relayed⟩ := sample_relayed
  exact ⟨by decide, lines',
    (client_of_relayed sampleNet_lawful _ _ (by decide) relayed).1⟩

end Wok.Ws
