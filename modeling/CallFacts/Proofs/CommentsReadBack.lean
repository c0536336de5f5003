import CallFacts.Proofs.RegisterNames
import CallFacts.Proofs.RelationReadBack
import CallFacts.Proofs.Traversals

/-!
# Reading the comments back

A comment line names an address and, behind a colon, registers with their values. The facts of a table come in ascending
order, so those of one address stand together and make one line, and the addresses of the lines ascend. Each line can be
read without the table, and the lines one after the other tell the facts of the table, all of them and in their order.
-/

namespace CallFacts

/-! ### The reader -/

/-- What a comment line tells: an address, and registers with their values there. -/
structure Comment where
  address : Word
  entries : List (Register × Word)
deriving DecidableEq

namespace Comment

variable {arch : Arch}

/-- The name of a register, an equals sign and a value. -/
def readPair? (arch : Arch) (text : List Char) : Option (Register × Word) := do
  let (name, value) ← Text.cutFirst '=' text
  let view ← arch.register? name
  let value ← Text.value? value
  return (view.register, value)

/-- An address, a colon, and entries with one blank ahead of each. -/
def readLine? (arch : Arch) (line : List Char) : Option Comment := do
  let (address, rest) ← Text.cutFirst ':' line
  let address ← Text.value? address
  let entries ← Text.dropStart? [' '] rest
  let entries ← (entries.splitOn ' ').mapM (readPair? arch)
  return ⟨address, entries⟩

/-- The sites of a comment with their values. -/
def sites (c : Comment) : List (Site × Word) := c.entries.map fun (r, value) => (⟨c.address, r⟩, value)

example : readLine? .arm64 "0x100c: x0=0x7 sp=0xffffffff".toList = some ⟨0x100c, [(0, 7), (31, 0xffffffff)]⟩ := by
  decide +kernel

end Comment

namespace Render

variable {arch : Arch} {f f' : Fact} {facts group : List Fact}

/-! ### Groups -/

/-- Facts that follow each other at one address stand together. -/
def groupByAddress (facts : List Fact) : List (List Fact) :=
  facts.splitBy fun f g => f.site.address == g.site.address

theorem flatten_groupByAddress (facts : List Fact) : (groupByAddress facts).flatten = facts :=
  List.flatten_splitBy _ facts

/-- A group is not empty, and all its facts are about the address of the first. -/
theorem address_of_mem_group (hgroup : group ∈ groupByAddress facts) :
    ∃ first rest, group = first :: rest ∧ ∀ f ∈ group, f.site.address = first.site.address := by
  obtain ⟨first, rest, rfl⟩ := List.exists_cons_of_ne_nil (List.ne_nil_of_mem_splitBy hgroup)
  have hchain : ((first :: rest).map fun f => f.site.address).IsChain (· = ·) := by
    rw [List.isChain_map]
    exact (List.isChain_of_mem_splitBy hgroup).imp (by simp)
  refine ⟨first, rest, rfl, fun f hf => ?_⟩
  have hmem : f.site.address ∈ (first :: rest).map fun f => f.site.address := List.mem_map_of_mem hf
  rw [List.isChain_eq_iff_eq_replicate.mp hchain first.site.address rfl] at hmem
  exact List.eq_of_mem_replicate hmem

/-- What the line of a group tells. -/
def commentOf (group : List Fact) : Comment where
  address := (group.head?.map fun f => f.site.address).getD 0
  entries := group.map fun f => (f.site.register, f.value)

theorem address_commentOf (hgroup : group ∈ groupByAddress facts) (hf : f ∈ group) :
    (commentOf group).address = f.site.address := by
  obtain ⟨first, rest, rfl, haddress⟩ := address_of_mem_group hgroup
  exact (haddress f hf).symm

theorem sites_commentOf (hgroup : group ∈ groupByAddress facts) :
    (commentOf group).sites = group.map fun f => (f.site, f.value) := by
  rw [Comment.sites, commentOf, List.map_map]
  refine List.map_congr_left fun f hf => ?_
  show ((⟨(commentOf group).address, f.site.register⟩ : Site), f.value) = (f.site, f.value)
  rw [address_commentOf hgroup hf]

theorem flatMap_sites (facts : List Fact) :
    ((groupByAddress facts).map commentOf).flatMap Comment.sites = facts.map fun f => (f.site, f.value) := by
  rw [List.flatMap_map]
  calc (groupByAddress facts).flatMap (fun group => (commentOf group).sites)
      = (groupByAddress facts).flatMap (fun group => group.map fun f => (f.site, f.value)) :=
        List.flatMap_congr fun group hgroup => sites_commentOf hgroup
    _ = ((groupByAddress facts).flatten).map fun f => (f.site, f.value) := by
        rw [List.map_flatten, List.flatMap_def]
    _ = facts.map fun f => (f.site, f.value) := by rw [flatten_groupByAddress]

/-- The facts on either side of the cut between two groups differ in their addresses. -/
theorem isChain_address (facts : List Fact) :
    (groupByAddress facts).IsChain fun group group' => (commentOf group).address ≠ (commentOf group').address := by
  rw [List.isChain_iff_forall_rel_of_append_cons_cons]
  intro group group' before after hcut
  have hgroup : group ∈ groupByAddress facts := by simp [hcut]
  have hgroup' : group' ∈ groupByAddress facts := by simp [hcut]
  obtain ⟨hne, hne', hdiffer⟩ := List.isChain_iff_forall_rel_of_append_cons_cons.mp
    (List.isChain_getLast_head_splitBy _ facts) hcut
  rw [address_commentOf hgroup (List.getLast_mem hne), address_commentOf hgroup' (List.head_mem hne')]
  simpa using hdiffer

/-- Of two groups that follow each other in ascending facts, the second has the higher address. -/
theorem address_lt_of_adjacent (h : facts.Pairwise fun f f' => f.site.rank < f'.site.rank) {group' : List Fact}
    {before after : List (List Fact)} (hcut : groupByAddress facts = before ++ group :: group' :: after) :
    (commentOf group).address < (commentOf group').address := by
  have hgroup : group ∈ groupByAddress facts := by simp [hcut]
  have hgroup' : group' ∈ groupByAddress facts := by simp [hcut]
  have hdiffer := List.isChain_iff_forall_rel_of_append_cons_cons.mp (isChain_address facts) hcut
  obtain ⟨first, rest, rfl, -⟩ := address_of_mem_group hgroup
  obtain ⟨first', rest', rfl, -⟩ := address_of_mem_group hgroup'
  rw [← flatten_groupByAddress facts, List.pairwise_flatten] at h
  have hrank : first.site.rank < first'.site.rank :=
    List.isChain_iff_forall_rel_of_append_cons_cons.mp h.2.isChain hcut _ List.mem_cons_self _ List.mem_cons_self
  rcases Site.rank_lt_rank_iff.mp hrank with hlt | ⟨heq, -⟩
  · exact hlt
  · exact absurd heq hdiffer

theorem ascending_comments (h : facts.Pairwise fun f f' => f.site.rank < f'.site.rank) :
    ((groupByAddress facts).map commentOf).Pairwise fun c c' => c.address < c'.address := by
  have hchain : ((groupByAddress facts).map fun group => (commentOf group).address).IsChain (· < ·) := by
    rw [List.isChain_map, List.isChain_iff_forall_rel_of_append_cons_cons]
    intro group group' before after hcut
    exact address_lt_of_adjacent h hcut
  rw [List.isChain_iff_pairwise, List.pairwise_map] at hchain
  rwa [List.pairwise_map]

theorem exists_comment_iff {a : Word} :
    (∃ c ∈ (groupByAddress facts).map commentOf, c.address = a) ↔ ∃ f ∈ facts, f.site.address = a := by
  constructor
  · rintro ⟨c, hc, rfl⟩
    obtain ⟨group, hgroup, rfl⟩ := List.mem_map.mp hc
    obtain ⟨first, rest, rfl, -⟩ := address_of_mem_group hgroup
    refine ⟨first, ?_, rfl⟩
    rw [← flatten_groupByAddress facts]
    exact List.mem_flatten_of_mem hgroup List.mem_cons_self
  · rintro ⟨f, hf, rfl⟩
    rw [← flatten_groupByAddress facts] at hf
    obtain ⟨group, hgroup, hf⟩ := List.mem_flatten.mp hf
    exact ⟨commentOf group, List.mem_map_of_mem hgroup, address_commentOf hgroup hf⟩

/-! ### Lines -/

/-- The line of a group, without its end. -/
def commentLine (arch : Arch) (facts : List Fact) : String :=
  match facts with
  | [] => ""
  | first :: _ => Text.hex first.site.address ++ ":" ++ String.join (facts.map (Comments.entry arch))

/-- An entry of a comment line. -/
def entryText (arch : Arch) (f : Fact) : List Char :=
  (arch.registerName f.site.register).toList ++ '=' :: (Text.hex f.value).toList

/-- The words of the line of a group. -/
def commentWords (arch : Arch) (group : List Fact) : List (List Char) :=
  ((Text.hex (commentOf group).address).toList ++ [':']) :: group.map (entryText arch)

theorem isWord_entryText (h : f.site.register.val < arch.registerCount) : Text.IsWord (entryText arch f) :=
  (Arch.registerName_plain h).1.append (Text.IsWord.append (w := ['=']) (by decide) (Text.isWord_hex f.value))

theorem isWord_of_mem_commentWords (h : ∀ f ∈ group, f.site.register.val < arch.registerCount) {w : List Char}
    (hw : w ∈ commentWords arch group) : Text.IsWord w := by
  rcases List.mem_cons.mp hw with rfl | hw
  · exact (Text.isWord_hex _).append (by decide)
  · obtain ⟨f, hf, rfl⟩ := List.mem_map.mp hw
    exact isWord_entryText (h f hf)

/-- Words with a mark ahead of each, behind another word. -/
theorem append_flatMap_cons (c : Char) (w : List Char) (ws : List (List Char)) :
    w ++ ws.flatMap (c :: ·) = [c].intercalate (w :: ws) := by
  induction ws generalizing w with
  | nil => simp
  | cons v ws ih =>
    rw [List.flatMap_cons, List.intercalate_cons_cons, ← ih v]
    simp

theorem toList_commentLine (arch : Arch) (hne : group ≠ []) :
    (commentLine arch group).toList = [' '].intercalate (commentWords arch group) := by
  obtain ⟨first, rest, rfl⟩ := List.exists_cons_of_ne_nil hne
  simp [commentWords, ← append_flatMap_cons, commentLine, commentOf, Comments.entry, String.toList_join, entryText,
    List.flatMap_map]

theorem readPair?_entryText (h : f.site.register.val < arch.registerCount) :
    Comment.readPair? arch (entryText arch f) = some (f.site.register, f.value) := by
  obtain ⟨bits, hregister⟩ := Arch.register?_registerName h
  have hname : '=' ∉ (arch.registerName f.site.register).toList := (Arch.isMadeOf_name hregister).not_mem (by decide)
  have hvalue : Text.value? (Text.hex f.value).toList = some f.value := Text.markedWord?_hex _ f.value
  rw [Comment.readPair?, entryText, Text.cutFirst_append_cons hname]
  simp [hregister, hvalue]

/-- The line of a group is read as what it tells. -/
theorem readLine?_commentWords (hne : group ≠ []) (h : ∀ f ∈ group, f.site.register.val < arch.registerCount) :
    Comment.readLine? arch ([' '].intercalate (commentWords arch group)) = some (commentOf group) := by
  have hcolon : ':' ∉ (Text.hex (commentOf group).address).toList := (Text.isName_hex _).not_mem rfl
  have haddress : Text.value? (Text.hex (commentOf group).address).toList = some (commentOf group).address :=
    Text.markedWord?_hex _ _
  have hsplit : ([' '].intercalate (group.map (entryText arch))).splitOn ' ' = group.map (entryText arch) := by
    refine List.splitOn_intercalate ' ' ?_ (by simpa using hne)
    intro w hw
    obtain ⟨f, hf, rfl⟩ := List.mem_map.mp hw
    exact (isWord_entryText (h f hf)).not_mem (by decide)
  have hentries : (group.map (entryText arch)).mapM (Comment.readPair? arch) = some (commentOf group).entries := by
    rw [commentOf, mapM_eq_some_iff_forall₂, List.forall₂_map_left_iff, List.forall₂_map_right_iff,
      List.forall₂_same]
    exact fun f hf => readPair?_entryText (h f hf)
  have hline : [' '].intercalate (commentWords arch group) =
      (Text.hex (commentOf group).address).toList ++ ':' :: ' ' :: [' '].intercalate (group.map (entryText arch)) := by
    obtain ⟨first, rest, rfl⟩ := List.exists_cons_of_ne_nil hne
    rw [commentWords, List.map_cons, List.intercalate_cons_cons]
    simp
  rw [hline, Comment.readLine?, Text.cutFirst_append_cons hcolon]
  simp [haddress, Text.dropStart?, hsplit, hentries]

namespace Comments

variable {c : Comments} {a : Word}

/-- At the address of the last line, facts are written behind it. -/
theorem foldl_push_of_current (hcurrent : c.current = some a) (haddress : ∀ f ∈ group, f.site.address = a) :
    group.foldl (push arch) c = ⟨c.text ++ String.join (group.map (entry arch)), some a⟩ := by
  induction group generalizing c with
  | nil =>
    rw [← hcurrent]
    simp
  | cons f group ih =>
    have hpush : push arch c f = ⟨c.text ++ entry arch f, some a⟩ := by
      rw [push, haddress f List.mem_cons_self, if_pos hcurrent]
    rw [List.foldl_cons, hpush, ih rfl fun f hf => haddress f (List.mem_cons_of_mem _ hf)]
    simp [String.append_assoc]

/-- A group at another address than that of the last line ends that line and writes its own. -/
theorem foldl_push_group (hgroup : group ∈ groupByAddress facts) (hother : c.current ≠ some (commentOf group).address) :
    group.foldl (push arch) c = ⟨c.ended ++ commentLine arch group, some (commentOf group).address⟩ := by
  obtain ⟨first, rest, rfl, haddress⟩ := address_of_mem_group hgroup
  have hother : c.current ≠ some first.site.address := hother
  rw [List.foldl_cons, foldl_push_of_current rfl fun f hf => haddress f (List.mem_cons_of_mem _ hf), push,
    if_neg hother]
  simp [commentLine, commentOf, String.append_assoc]

/-- Every group is written as a line, since the line before it is about another address. -/
theorem ended_foldl_groups {groups : List (List Fact)} (hgroups : ∀ group ∈ groups, group ∈ groupByAddress facts)
    (hchain : groups.IsChain fun group group' => (commentOf group).address ≠ (commentOf group').address)
    (hother : ∀ group ∈ groups.head?, c.current ≠ some (commentOf group).address) :
    (groups.foldl (fun c group => group.foldl (push arch) c) c).ended =
      c.ended ++ String.join (groups.map fun group => line (commentLine arch group)) := by
  induction groups generalizing c with
  | nil => simp
  | cons group groups ih =>
    rw [List.foldl_cons, foldl_push_group (hgroups group List.mem_cons_self) (hother group rfl), ih]
    · simp [ended, line, String.append_assoc]
    · exact fun group hgroup => hgroups group (List.mem_cons_of_mem _ hgroup)
    · exact hchain.tail
    · -- The line just written is about its own group's address, and the next group is about another.
      intro group' hgroup' heq
      obtain ⟨rest, rfl⟩ := List.head?_eq_some_iff.mp hgroup'
      exact hchain.rel (Option.some.inj heq)

end Comments

/-- What is written fact by fact is one line for each group. -/
theorem comments_eq_join (arch : Arch) (facts : List Fact) :
    comments arch facts = String.join ((groupByAddress facts).map fun group => line (commentLine arch group)) := by
  have hfacts : comments arch facts = ((groupByAddress facts).foldl
      (fun (c : Comments) group => group.foldl (Comments.push arch) c) Comments.empty).ended := by
    rw [← List.foldl_flatten, flatten_groupByAddress, comments]
  have hstart : ∀ group ∈ (groupByAddress facts).head?, Comments.empty.current ≠ some (commentOf group).address := by
    simp [Comments.empty]
  rw [hfacts, Comments.ended_foldl_groups (fun _ hgroup => hgroup) (isChain_address facts) hstart]
  simp [Comments.empty, Comments.ended]

/-- The lines of the comments, one for each group. -/
theorem toList_comments (arch : Arch) (facts : List Fact) :
    (comments arch facts).toList =
      ((groupByAddress facts).map fun group => [' '].intercalate (commentWords arch group)).flatMap (· ++ ['\n']) := by
  have htexts : (groupByAddress facts).map (fun group => (commentLine arch group).toList) =
      (groupByAddress facts).map fun group => [' '].intercalate (commentWords arch group) :=
    List.map_congr_left fun group hgroup => toList_commentLine arch (List.ne_nil_of_mem_splitBy hgroup)
  rw [comments_eq_join, toList_lines, htexts]

theorem lines_comments (h : ∀ f ∈ facts, f.site.register.val < arch.registerCount) :
    Text.lines (comments arch facts).toList =
      (groupByAddress facts).map fun group => [' '].intercalate (commentWords arch group) := by
  rw [toList_comments, Text.lines_flatMap]
  intro line hline
  obtain ⟨group, hgroup, rfl⟩ := List.mem_map.mp hline
  have hregisters : ∀ f ∈ group, f.site.register.val < arch.registerCount := fun f hf =>
    h f (flatten_groupByAddress facts ▸ List.mem_flatten_of_mem hgroup hf)
  exact Text.line_of_words (by decide) (by decide) fun w => isWord_of_mem_commentWords hregisters

theorem comments_eq_empty_iff : comments arch facts = "" ↔ facts = [] := by
  constructor
  · intro hempty
    have hlines : (comments arch facts).toList = [] := by rw [hempty]; rfl
    rw [toList_comments, List.flatMap_eq_nil_iff] at hlines
    have hgroups : groupByAddress facts = [] := by
      refine List.eq_nil_iff_forall_not_mem.mpr fun group hgroup => ?_
      exact List.cons_ne_nil _ _ (List.append_eq_nil_iff.mp (hlines _ (List.mem_map_of_mem hgroup))).2
    rw [← flatten_groupByAddress facts, hgroups]
    rfl
  · rintro rfl
    rfl

end Render

/-- The comments of a table are lines, each ended by a line feed. Read one by one, they have ascending addresses, which
are the addresses of the facts, and tell one after the other the facts of the table. There are none only if there are no
facts. -/
theorem FactTable.comments_read_back (t : FactTable) (arch : Arch)
    (h : ∀ f ∈ t.facts, f.site.register.val < arch.registerCount) :
    let text := t.render arch .comments
    text.toList = (Text.lines text.toList).flatMap (· ++ ['\n']) ∧
      (∃ comments : List Comment,
        (Text.lines text.toList).mapM (Comment.readLine? arch) = some comments ∧
          comments.Pairwise (fun c c' => c.address < c'.address) ∧
          (∀ a, (∃ c ∈ comments, c.address = a) ↔ ∃ f ∈ t.facts, f.site.address = a) ∧
          comments.flatMap Comment.sites = t.facts.map fun f => (f.site, f.value)) ∧
      (text = "" ↔ t.facts = []) := by
  intro text
  have hlines := Render.lines_comments h
  have htext := Render.toList_comments arch t.facts
  refine ⟨?_, ⟨_, ?_, Render.ascending_comments t.ascending, fun a => Render.exists_comment_iff,
    Render.flatMap_sites t.facts⟩, ?_⟩
  · show (Render.comments arch t.facts).toList = (Text.lines (Render.comments arch t.facts).toList).flatMap _
    rw [hlines, htext]
  · show (Text.lines (Render.comments arch t.facts).toList).mapM _ = _
    rw [hlines, mapM_eq_some_iff_forall₂, List.forall₂_map_left_iff, List.forall₂_map_right_iff, List.forall₂_same]
    intro group hgroup
    refine Render.readLine?_commentWords (List.ne_nil_of_mem_splitBy hgroup) fun f hf => h f ?_
    exact Render.flatten_groupByAddress t.facts ▸ List.mem_flatten_of_mem hgroup hf
  · exact Render.comments_eq_empty_iff

/-- Two registers at address 0 and one at another address. -/
def FactTable.atTwoAddresses : FactTable where
  facts := [⟨⟨0, 0⟩, 7, 64⟩, ⟨⟨0, 31⟩, 0, 32⟩, ⟨⟨0x1000, 30⟩, 0xffff, 64⟩]
  ascending := by decide

/-- Its comments are two lines, of which the first tells two facts. -/
theorem FactTable.atTwoAddresses_read_back :
    (∀ f ∈ atTwoAddresses.facts, f.site.register.val < Arch.arm64.registerCount) ∧
      atTwoAddresses.render .arm64 .comments = "0x0: x0=0x7 sp=0x0\n0x1000: x30=0xffff\n" ∧
      ∃ comments : List Comment,
        (Text.lines (atTwoAddresses.render .arm64 .comments).toList).mapM (Comment.readLine? .arm64) =
            some comments ∧
          comments.flatMap Comment.sites = [(⟨0, 0⟩, 7), (⟨0, 31⟩, 0), (⟨0x1000, 30⟩, 0xffff)] := by
  have hregisters : ∀ f ∈ atTwoAddresses.facts, f.site.register.val < Arch.arm64.registerCount := by decide
  obtain ⟨-, ⟨comments, hread, -, -, hsites⟩, -⟩ := comments_read_back atTwoAddresses .arm64 hregisters
  exact ⟨hregisters, by decide +kernel, comments, hread, hsites⟩

end CallFacts
