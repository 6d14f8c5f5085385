import InlineMarkup.Proofs.Grammar
import InlineMarkup.Proofs.Mirror
import Mathlib.Order.Bounds.Basic

/-! The choice of a fence: the shortest one that no run of backticks in the content could close. What is
collected of the content, what is looked for and what a scan passes over are the same runs. -/

namespace InlineMarkup

variable {options : ScanOptions} {fence least n run tries : Nat} {c : Char}
  {before content raw t text : List Char} {kind : TokenKind}

namespace Backtick

/-! ### Runs -/

/-- The runs of backticks in a text, as it is split where no backtick stands. -/
def tickRuns (content : List Char) : List (List Char) :=
  (content.splitOnP (· != '`')).filter (· ≠ [])

/-- A run that has been passed goes to the first piece of what follows. -/
theorem runs_go_eq (run : Nat) (found : List Nat) : runs.go content run found =
    ((((content.splitOnP (· != '`')).modifyHead (List.replicate run '`' ++ ·)).filter
      (· ≠ [])).map List.length).reverse ++ found := by
  induction content generalizing run found with
  | nil =>
    rw [runs.go]
    by_cases hrun : run = 0 <;> simp [hrun]
  | cons c content ih =>
    rw [runs.go]
    by_cases hc : c = '`'
    · subst hc
      have hsplit : ('`' :: content).splitOnP (· != '`') =
          (content.splitOnP (· != '`')).modifyHead (List.cons '`') := by
        rw [List.splitOnP_cons_eq_if_modifyHead, if_neg (by simp)]
      have hlonger : (List.replicate run '`' ++ ·) ∘ List.cons '`' =
          (List.replicate (run + 1) '`' ++ ·) := by
        funext s
        simp [List.replicate_succ']
      rw [if_pos rfl, ih, hsplit, List.modifyHead_modifyHead, hlonger]
    · have hsplit : (c :: content).splitOnP (· != '`') = [] :: content.splitOnP (· != '`') := by
        rw [List.splitOnP_cons_eq_if_modifyHead, if_pos (by simpa using hc)]
      have hsame : (List.replicate 0 '`' ++ ·) = (id : List Char → List Char) := rfl
      rw [if_neg hc, ih, hsplit, hsame, List.modifyHead_id]
      by_cases hrun : run = 0 <;> simp [hrun]

/-- The runs that are collected are those of the text, the last one first. -/
theorem runs_eq (content : List Char) : runs content = ((tickRuns content).map List.length).reverse := by
  have hsame : (List.replicate 0 '`' ++ ·) = (id : List Char → List Char) := rfl
  rw [runs, runs_go_eq, hsame, List.modifyHead_id, List.append_nil]
  rfl

theorem length_runs (content : List Char) : (runs content).length = (tickRuns content).length := by
  rw [runs_eq, List.length_reverse, List.length_map]

theorem HasRun.append_cons (h : HasRun n t) (hc : c ≠ '`') (s : List Char) : HasRun n (s ++ c :: t) := by
  obtain ⟨before, after, rfl, hlast, hhead⟩ := h
  refine ⟨s ++ c :: before, after, by simp, ?_, hhead⟩
  cases before with
  | nil => simpa using hc
  | cons d before => simpa using hlast

/-- What is collected after a run of backticks stands in the text with that run before it. -/
theorem hasRun_of_mem_runs_go {found : List Nat} (h : n ∈ runs.go content run found) :
    n ∈ found ∨ HasRun n (List.replicate run '`' ++ content) := by
  induction content generalizing run found with
  | nil =>
    rw [runs.go] at h
    split at h
    · exact .inl h
    · rcases List.mem_cons.1 h with rfl | hmem
      · exact .inr ⟨[], [], rfl, by simp, by simp⟩
      · exact .inl hmem
  | cons c content ih =>
    rw [runs.go] at h
    by_cases hc : c = '`'
    · -- the run grows, and the text is the same
      subst hc
      rw [if_pos rfl] at h
      have hrun := ih h
      rwa [List.replicate_succ', List.append_assoc] at hrun
    · rw [if_neg hc] at h
      rcases ih h with hmem | hrun
      · split at hmem
        · exact .inl hmem
        · rcases List.mem_cons.1 hmem with rfl | hmem
          · -- the run ends here
            exact .inr ⟨[], c :: content, rfl, by simp, by simpa using hc⟩
          · exact .inl hmem
      · exact .inr (hrun.append_cons hc _)

/-- The lengths that are collected are those of the runs that could close a fence. -/
theorem mem_runs_iff (hn : n ≠ 0) : n ∈ runs content ↔ HasRun n content := by
  constructor
  · intro h
    exact (hasRun_of_mem_runs_go h).resolve_left List.not_mem_nil
  · intro h
    by_contra hnot
    exact (closing?_eq_none_iff hn).1 (closing?_eq_none hnot) h

/-! ### The shortest fence -/

theorem shortestFence_le (content : List Char) (least : Nat) :
    shortestFence content least ≤ least + (tickRuns content).length := by
  have hmem := List.mem_of_find?_eq_some (find?_eq_shortestFence content least)
  rw [List.mem_range'_1, length_runs] at hmem
  omega

theorem mem_runs_of_lt_shortestFence (hle : least ≤ n) (hlt : n < shortestFence content least) :
    n ∈ runs content := by
  obtain ⟨-, -, hbelow⟩ := List.find?_range'_eq_some.1 (find?_eq_shortestFence content least)
  simpa using hbelow n hle hlt

theorem isLeast_shortestFence (content : List Char) (hleast : least ≠ 0) :
    IsLeast {n | least ≤ n ∧ ¬HasRun n content} (shortestFence content least) := by
  obtain ⟨hle, hfree⟩ := shortestFence_spec content least
  constructor
  · refine ⟨hle, ?_⟩
    rwa [← mem_runs_iff (by omega)]
  · rintro n ⟨hn, hnot⟩
    by_contra hlt
    have htaken := mem_runs_of_lt_shortestFence hn (Nat.not_le.1 hlt)
    exact hnot ((mem_runs_iff (by omega)).1 htaken)

/-- However far the search goes, it ends at the shortest fence. -/
theorem find?_range'_shortestFence (content : List Char) (least : Nat)
    (htries : (tickRuns content).length < tries) :
    (List.range' least tries).find? (fun n => !(runs content).contains n) =
      some (shortestFence content least) := by
  obtain ⟨hle, hfree⟩ := shortestFence_spec content least
  have hupper := shortestFence_le content least
  refine List.find?_range'_eq_some.2 ⟨by simpa using hfree, ?_, ?_⟩
  · rw [List.mem_range'_1]
    omega
  · intro n hn hlt
    simpa using mem_runs_of_lt_shortestFence hn hlt

end Backtick

open Backtick

/-! ### What a fenced text is scanned as -/

/-- A text that is scanned as one token is all of it. -/
theorem lexeme_of_pieces_eq (h : (scan options text).pieces = [(kind, raw)]) :
    raw = text ∧ Lexeme options [] kind raw [] := by
  have hlexed := lexed_scan options text
  rw [h] at hlexed
  exact ⟨by simpa using hlexed.covers, hlexed.lexeme [] kind raw [] rfl⟩

/-- Whether `fence` backticks on either side of the content are scanned as one token of code, closed and with
this fence and content. -/
def ScansAsCode (options : ScanOptions) (fence : Nat) (content : List Char) : Prop :=
  ∃ token, scan options (Markdown.fenced fence content) = ⟨#[token], #[]⟩ ∧
    token.kind = (if blockFence ≤ fence then .codeBlock else .codeInline) ∧
    parts token.raw = (fence, content)

theorem scan_fenced (options : ScanOptions) (hcode : Encloses fence content) :
    scan options (Markdown.fenced fence content) =
      ⟨#[⟨if blockFence ≤ fence then .codeBlock else .codeInline, 0, Markdown.fenced fence content⟩],
        #[]⟩ := by
  have hread : Reading.code 0 (Markdown.fenced fence content ++ []) = _ := Reading.read_code hcode nofun
  obtain ⟨n, rfl⟩ := Nat.exists_eq_succ_of_ne_zero hcode.fence_ne_zero
  obtain ⟨after, hafter⟩ : ∃ after, Markdown.fenced (n + 1) content = '`' :: after := ⟨_, rfl⟩
  rw [List.append_nil, hafter] at hread
  have hconstruct : Scan.construct? options (lastOffset? ')' ('`' :: after)) none 0 '`' after =
      some (.owned .backtick (Reading.code 0 ('`' :: after))) :=
    Scan.construct?_trigger .backtick nofun
  rw [hread] at hconstruct
  rw [hafter, scan, Scan.scanFrom_construct hconstruct (List.append_nil _).symm rfl
    (List.cons_ne_nil _ _), Scan.scanFrom]
  rfl

/-- Code that is all of a text has no run as long as its fence, be it closed or not. -/
theorem Lexeme.not_hasRun (h : Lexeme options before kind raw [])
    (hkind : kind = .codeInline ∨ kind = .codeBlock) (hparts : parts raw = (fence, content)) :
    ¬HasRun fence content := by
  cases h with
  | code _ hcontent hhead hlast hfree =>
    rw [Markdown.fenced, List.append_assoc, parts_fenced hcontent hhead hlast] at hparts
    obtain ⟨rfl, rfl⟩ := Prod.mk.inj hparts
    exact hfree
  | openCode hfence hcontent hhead hfree =>
    have hpos := ne_zero_of_blockFence_le hfence
    rw [parts_unclosed hpos hhead ((closing?_eq_none_iff hpos).2 hfree)] at hparts
    obtain ⟨rfl, rfl⟩ := Prod.mk.inj hparts
    exact hfree
  | _ => simp at hkind

/-- A fence makes code of the content just if no run in the content has its length. -/
theorem scansAsCode_iff (options : ScanOptions) (hfence : fence ≠ 0) (hcontent : content ≠ [])
    (hhead : content.head? ≠ some '`') (hlast : content.getLast? ≠ some '`') :
    ScansAsCode options fence content ↔ ¬HasRun fence content := by
  constructor
  · rintro ⟨token, hscan, hkind, hparts⟩
    have hpieces : (scan options (Markdown.fenced fence content)).pieces = [token.piece] := by
      rw [hscan]
      rfl
    refine (lexeme_of_pieces_eq hpieces).2.not_hasRun ?_ hparts
    rw [hkind]
    split
    · exact .inr rfl
    · exact .inl rfl
  · intro hfree
    have hcode : Encloses fence content :=
      ⟨hfence, hcontent, hhead, hlast, (closing?_eq_none_iff hfence).2 hfree⟩
    refine ⟨_, scan_fenced options hcode, rfl, ?_⟩
    rw [Markdown.fenced, List.append_assoc, parts_fenced hcontent hhead hlast]

/-! ### What a fenced text is read as -/

/-- A document that is nothing but code comes from a text that is one token of code. -/
theorem exists_pieces_of_document_eq
    (h : (parseWith options text).document = .ofTrees [.code fence content]) :
    ∃ kind, (kind = .codeInline ∨ kind = .codeBlock) ∧ (scan options text).pieces = [(kind, text)] ∧
      parts text = (fence, content) := by
  -- the tree below the root says of which item the code was made, and that there is no other
  have htree := congrArg (Document.tree · Document.rootId) h
  simp only [document_parseWith, Document.tree_ofTrees, Tree.root.injEq] at htree
  obtain ⟨item, hitem, hcode⟩ := List.map_eq_singleton_iff.1 (Tree.merge_eq_singleton htree nofun)
  have hpieces := allPieces_pairUp (scan options text).pieces
  rw [hitem] at hpieces
  cases item with
  | token kind raw =>
    obtain ⟨rfl, -⟩ := lexeme_of_pieces_eq hpieces.symm
    rw [Item.tree] at hcode
    cases kind with
    | codeInline | codeBlock =>
      obtain ⟨hfence, hcontent⟩ := Tree.code.inj hcode
      exact ⟨_, by simp, hpieces.symm, Prod.ext hfence hcontent⟩
    | _ => cases hcode
  | pair tag opener inside closer => cases tag <;> cases hcode

/-- A fence makes a document of nothing but the code just if no run in the content has its length. -/
theorem document_fenced_iff (options : ScanOptions) (hfence : fence ≠ 0) (hcontent : content ≠ [])
    (hhead : content.head? ≠ some '`') (hlast : content.getLast? ≠ some '`') (other : Nat) :
    (parseWith options (Markdown.fenced fence content)).document = .ofTrees [.code other content] ↔
      other = fence ∧ ¬HasRun fence content := by
  constructor
  · intro h
    obtain ⟨kind, hkind, hpieces, hparts⟩ := exists_pieces_of_document_eq h
    rw [Markdown.fenced, List.append_assoc, parts_fenced hcontent hhead hlast, Prod.mk.injEq] at hparts
    obtain ⟨rfl, -⟩ := hparts
    refine ⟨rfl, (lexeme_of_pieces_eq hpieces).2.not_hasRun hkind ?_⟩
    rw [Markdown.fenced, List.append_assoc, parts_fenced hcontent hhead hlast]
  · rintro ⟨rfl, hfree⟩
    have hcode : Encloses other content :=
      ⟨hfence, hcontent, hhead, hlast, (closing?_eq_none_iff hfence).2 hfree⟩
    have hpair (kind : TokenKind) (hkind : kind = .codeInline ∨ kind = .codeBlock) :
        Tree.merge ((pairUp [(kind, Markdown.fenced other content)]).map Item.tree) =
          [.code other content] := by
      rw [← Tree.ofToken_fenced hkind hcode]
      rcases hkind with rfl | rfl <;> rfl
    rw [document_parseWith, scan_fenced options hcode]
    congr 1
    apply hpair
    split
    · exact .inr rfl
    · exact .inl rfl

/-- The shortest fence that a block or other code may have. -/
def leastFence (block : Bool) : Nat := if block then blockFence else 1

theorem leastFence_ne_zero (block : Bool) : leastFence block ≠ 0 := by
  cases block <;> decide

namespace Document

/-- Where the code is hung changes nothing about it, for a leaf takes no children. -/
theorem node?_addCode (doc : Document) (parent : NodeId) (content : List Char) (block : Bool) :
    (doc.addCode parent content block).1.node? (doc.addCode parent content block).2 =
      some (.code (shortestFence content (leastFence block)) content) := by
  have hstored := doc.node?_store_size (.code (shortestFence content (leastFence block)) content)
  have hadded : (doc.addCode parent content block).1 = (doc.store
      (.code (shortestFence content (leastFence block)) content)).1.append parent doc.size := rfl
  have hid : (doc.addCode parent content block).2 = doc.size := rfl
  rw [hadded, hid, append, node?_modify, hstored]
  split <;> rfl

/-- The fence of code is the shortest one that no run of backticks in its content could close. It is found
among as many candidates as there are runs and one more, and no shorter one would do. -/
theorem exists_fence_addCode (doc : Document) (parent : NodeId) (content : List Char) (block : Bool) :
    ∃ fence, (doc.addCode parent content block).1.node? (doc.addCode parent content block).2 =
        some (.code fence content) ∧
      IsLeast {n | leastFence block ≤ n ∧ ¬HasRun n content} fence ∧
      fence ≤ leastFence block + (tickRuns content).length ∧
      (∀ tries, (tickRuns content).length < tries →
        (List.range' (leastFence block) tries).find? (fun n => !(runs content).contains n) = some fence) ∧
      (content ≠ [] → content.head? ≠ some '`' → content.getLast? ≠ some '`' → ∀ options : ScanOptions,
        (∀ n, n ≠ 0 → (ScansAsCode options n content ↔ ¬HasRun n content)) ∧
        (parseWith options (Markdown.fenced fence content)).document = .ofTrees [.code fence content] ∧
        ∀ n, leastFence block ≤ n → n < fence → ∀ other,
          (parseWith options (Markdown.fenced n content)).document ≠ .ofTrees [.code other content]) := by
  have hleast := isLeast_shortestFence content (leastFence_ne_zero block)
  refine ⟨_, node?_addCode doc parent content block, hleast, shortestFence_le content _,
    fun tries => find?_range'_shortestFence content _, fun hcontent hhead hlast options => ⟨?_, ?_, ?_⟩⟩
  · intro n hn
    exact scansAsCode_iff options hn hcontent hhead hlast
  · have hne : shortestFence content (leastFence block) ≠ 0 := by
      have := leastFence_ne_zero block
      have := hleast.1.1
      omega
    exact (document_fenced_iff options hne hcontent hhead hlast _).2 ⟨rfl, hleast.1.2⟩
  · intro n hn hlt other hdocument
    have hne : n ≠ 0 := by
      have := leastFence_ne_zero block
      omega
    obtain ⟨-, hfree⟩ := (document_fenced_iff options hne hcontent hhead hlast other).1 hdocument
    exact absurd (hleast.2 ⟨hn, hfree⟩) (Nat.not_le.2 hlt)

/-- Letters with one backtick and two backticks between them. -/
def tickedLetters : List Char := ['a', '`', 'b', '`', '`', 'c']

/-- One backtick and two are taken, so the fence is three. -/
theorem exists_fence_addCode_tickedLetters :
    (tickRuns tickedLetters).length < 3 ∧ tickedLetters ≠ [] ∧
    tickedLetters.head? ≠ some '`' ∧ tickedLetters.getLast? ≠ some '`' ∧
    (empty.addCode rootId tickedLetters false).1.node? (empty.addCode rootId tickedLetters false).2 =
      some (.code 3 tickedLetters) ∧
    ScansAsCode {} 3 tickedLetters ∧ ¬ScansAsCode {} 2 tickedLetters ∧
    ∀ other, (parseWith {} (Markdown.fenced 2 tickedLetters)).document ≠
      .ofTrees [.code other tickedLetters] := by
  have htries : (tickRuns tickedLetters).length < 3 := by decide
  have hcontent : tickedLetters ≠ [] := by decide
  have hhead : tickedLetters.head? ≠ some '`' := by decide
  have hlast : tickedLetters.getLast? ≠ some '`' := by decide
  have htwo : HasRun 2 tickedLetters := (mem_runs_iff (by decide)).1 (by decide)
  obtain ⟨fence, hnode, hleast, -, hsearch, hread⟩ :=
    exists_fence_addCode empty rootId tickedLetters false
  obtain rfl : 3 = fence := Option.some.inj (hsearch 3 htries)
  obtain ⟨hscans, -, hshorter⟩ := hread hcontent hhead hlast {}
  refine ⟨htries, hcontent, hhead, hlast, hnode, (hscans 3 (by decide)).2 hleast.1.2, ?_,
    hshorter 2 (by decide) (by decide)⟩
  rw [hscans 2 (by decide)]
  exact not_not_intro htwo

end Document

end InlineMarkup
