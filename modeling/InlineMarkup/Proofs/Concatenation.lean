import InlineMarkup.Proofs.Display
import InlineMarkup.Proofs.Joining
import InlineMarkup.Proofs.Matching
import InlineMarkup.Proofs.Reparse

/-! Concatenation: a text in which every opener is matched, and the text after it, make the documents
that they make by themselves, one after the other. -/

namespace InlineMarkup

theorem Tag.opener_inj {tag other : Tag} (h : tag.opener = other.opener) : tag = other := by
  rcases tag with (_ | _ | _ | _) | _ | _ <;> rcases other with (_ | _ | _ | _) | _ | _ <;>
    simp_all [opener, Style.tokenKind]

/-- A list is split in one way before the first entry of which `p` holds. -/
theorem eq_of_split {α : Type} {p : α → Prop} {above above' rest rest' : List α} {a a' : α}
    (h : above ++ a :: rest = above' ++ a' :: rest') (ha : p a) (ha' : p a')
    (habove : ∀ b ∈ above, ¬p b) (habove' : ∀ b ∈ above', ¬p b) :
    above = above' ∧ a = a' ∧ rest = rest' := by
  induction above generalizing above' with
  | nil =>
    cases above' with
    | nil => exact ⟨rfl, List.cons_eq_cons.1 h⟩
    | cons b above' =>
      obtain ⟨rfl, -⟩ := List.cons_eq_cons.1 h
      exact absurd ha (habove' a List.mem_cons_self)
  | cons b above ih =>
    cases above' with
    | nil =>
      obtain ⟨rfl, -⟩ := List.cons_eq_cons.1 h
      exact absurd ha' (habove b List.mem_cons_self)
    | cons b' above' =>
      obtain ⟨rfl, hrest⟩ := List.cons_eq_cons.1 h
      obtain ⟨rfl, hsame⟩ := ih hrest (List.forall_mem_cons.1 habove).2 (List.forall_mem_cons.1 habove').2
      exact ⟨rfl, hsame⟩

/-! ### What stands before the first opener -/

namespace Waiting

/-- The openers that wait and the items of the innermost level, when `items` stand before them all. -/
def after (items : List Item) : List Waiting → List Item → Pairing
  | [], level => ⟨[], items ++ level⟩
  | w :: waiting, level =>
    let outer := after items waiting w.before
    ⟨{ w with before := outer.level } :: outer.waiting, level⟩

variable {w : Waiting} {above waiting : List Waiting} {items level more : List Item}

theorem after_append (items : List Item) (waiting : List Waiting) (level more : List Item) :
    after items waiting (level ++ more) =
      ⟨(after items waiting level).waiting, (after items waiting level).level ++ more⟩ := by
  cases waiting with
  | nil => simp [after]
  | cons w waiting => rfl

/-- Only what stands before the first opener becomes more. -/
theorem after_above (items : List Item) (above : List Waiting) (w : Waiting) (waiting : List Waiting)
    (level : List Item) : after items (above ++ w :: waiting) level =
      ⟨above ++ (after items (w :: waiting) level).waiting, level⟩ := by
  induction above generalizing level with
  | nil => rfl
  | cons v above ih => simp only [List.cons_append, after, ih]

theorem map_tag_after (items : List Item) (waiting : List Waiting) (level : List Item) :
    (after items waiting level).waiting.map (·.tag) = waiting.map (·.tag) := by
  induction waiting generalizing level with
  | nil => rfl
  | cons w waiting ih => simp only [after, List.map_cons, ih]

theorem demote_after (items : List Item) (waiting : List Waiting) (level : List Item) :
    demote (after items waiting level).waiting (after items waiting level).level =
      items ++ demote waiting level := by
  induction waiting generalizing level with
  | nil => rfl
  | cons w waiting ih => simp only [after, demote, demote_append, ih, List.append_assoc]

end Waiting

namespace Pairing

variable {pairing next next' : Pairing} {kind : TokenKind} {raw : List Char} {items : List Item}
  {ps qs : List (TokenKind × List Char)}

/-- The same state, when `items` stand before everything else. -/
def after (items : List Item) (pairing : Pairing) : Pairing :=
  Waiting.after items pairing.waiting pairing.level

theorem forall_waiting_after {p : Tag → Prop} :
    (∀ w ∈ (pairing.after items).waiting, p w.tag) ↔ ∀ w ∈ pairing.waiting, p w.tag := by
  rw [← List.forall_mem_map (f := Waiting.tag), ← List.forall_mem_map (f := Waiting.tag), after,
    Waiting.map_tag_after]

theorem length_waiting_after (items : List Item) (pairing : Pairing) :
    (pairing.after items).waiting.length = pairing.waiting.length := by
  rw [← List.length_map Waiting.tag, after, Waiting.map_tag_after, List.length_map]

/-- What stands before the first opener has no part in a step. -/
theorem Step.after (h : Step pairing kind raw next) (items : List Item) :
    Step (pairing.after items) kind raw (next.after items) := by
  cases h with
  | push hstray hfull =>
    have hpush : (pairing.push (.token kind raw)).after items =
        (pairing.after items).push (.token kind raw) := Waiting.after_append ..
    rw [hpush]
    refine .push (forall_waiting_after (p := (kind ≠ ·.closer)).2 hstray) ?_
    rwa [length_waiting_after]
  | opened tag hkind hdepth hfree =>
    refine .opened tag hkind ?_ fun hs => forall_waiting_after (p := (· ≠ tag)).2 (hfree hs)
    rwa [length_waiting_after]
  | closed above w waiting hsplit hkind habove =>
    have hafter : pairing.after items =
        ⟨above ++ (Waiting.after items (w :: waiting) pairing.level).waiting, pairing.level⟩ := by
      rw [Pairing.after, hsplit, Waiting.after_above]
    rw [hafter, Pairing.after, Waiting.after_append]
    exact .closed above ⟨w.tag, w.raw, (Waiting.after items waiting w.before).level⟩ _ rfl hkind habove

/-- A step goes one way only. -/
theorem Step.unique (h : Step pairing kind raw next) (h' : Step pairing kind raw next') :
    next = next' := by
  cases h with
  | push hstray hfull =>
    cases h' with
    | push => rfl
    | opened tag hkind hdepth => exact absurd hdepth (Nat.not_lt.2 (hfull tag hkind))
    | closed above w waiting hsplit hkind => exact absurd hkind (hstray w (by simp [hsplit]))
  | opened tag hkind hdepth hfree =>
    cases h' with
    | push hstray hfull => exact absurd hdepth (Nat.not_lt.2 (hfull tag hkind))
    | opened tag' hkind' =>
      obtain rfl := Tag.opener_inj (hkind.symm.trans hkind')
      rfl
    | closed above w waiting hsplit hkind' =>
      have hw : w ∈ pairing.waiting := by simp [hsplit]
      exact absurd (hkind.symm.trans hkind') (Tag.opener_ne_closer fun hs => hfree hs w hw)
  | closed above w waiting hsplit hkind habove =>
    have hw : w ∈ pairing.waiting := by simp [hsplit]
    cases h' with
    | push hstray => exact absurd hkind (hstray w hw)
    | opened tag hkind' _ hfree =>
      exact absurd (hkind'.symm.trans hkind) (Tag.opener_ne_closer fun hs => hfree hs w hw)
    | closed above' w' waiting' hsplit' hkind' habove' =>
      obtain ⟨rfl, rfl, rfl⟩ := eq_of_split (p := (kind = ·.tag.closer))
        (hsplit.symm.trans hsplit') hkind hkind' habove habove'
      rfl

theorem run_after (items : List Item) (pairing : Pairing) (pieces : List (TokenKind × List Char)) :
    (pairing.after items).run pieces = (pairing.run pieces).after items := by
  induction pieces generalizing pairing with
  | nil => rfl
  | cons piece pieces ih =>
    rw [run_cons, run_cons, ← ih]
    exact congrArg (·.run pieces)
      ((step_spec _ _ _).unique ((step_spec pairing piece.1 piece.2).after items))

/-- Where no opener is left by itself outside all pairs, none waits in the end. -/
theorem waiting_eq_nil
    (h : ∀ kind ∈ Item.looseKinds (pairUp ps), ∀ tag : Tag, kind ≠ tag.opener) :
    (run {} ps).waiting = [] := by
  rw [List.eq_nil_iff_forall_not_mem]
  intro w hw
  have hmem : Item.token w.tag.opener w.raw ∈ pairUp ps :=
    Waiting.mem_demote.2 (.inr ⟨w, hw, .inr rfl⟩)
  exact h _ (Item.mem_looseKinds.2 ⟨_, hmem⟩) w.tag rfl

end Pairing

variable {ps qs : List (TokenKind × List Char)}

/-- Where no opener waits, what comes next is paired up by itself. -/
theorem pairUp_append (h : (Pairing.run {} ps).waiting = []) :
    pairUp (ps ++ qs) = pairUp ps ++ pairUp qs := by
  have hstart : Pairing.run {} ps = Pairing.after (pairUp ps) {} := by
    rw [pairUp]
    generalize Pairing.run {} ps = pairing at h ⊢
    obtain ⟨waiting, level⟩ := pairing
    obtain rfl : waiting = [] := h
    simp [Pairing.after, Waiting.after, Pairing.items, Waiting.demote]
  rw [pairUp, Pairing.run_append, hstart, Pairing.run_after]
  exact Waiting.demote_after ..

/-! ### Plain text that meets -/

namespace Token

theorem map_piece_join (tokens others : List Token) :
    (join tokens others).map piece = tokens.map piece ++ others.map piece ∨
      ∃ ps x y qs, tokens.map piece = ps ++ [(.text, x)] ∧ others.map piece = (.text, y) :: qs ∧
        (join tokens others).map piece = ps ++ (.text, x ++ y) :: qs := by
  unfold join
  split
  · rename_i last first rest hlast
    split
    · rename_i hplain
      obtain ⟨ps, rfl⟩ := List.getLast?_eq_some_iff.1 hlast
      simp only [isPlain, Bool.and_eq_true, beq_iff_eq] at hplain
      refine .inr ⟨ps.map piece, last.raw, first.raw, rest.map piece, ?_, ?_, ?_⟩
      · rw [List.map_append, List.map_singleton, piece, hplain.1.1]
      · rw [List.map_cons, piece, hplain.2.1]
      · rw [List.dropLast_concat, List.map_append, List.map_cons]
        rfl
    · exact .inl List.map_append
  · exact .inl List.map_append

end Token

/-- Tokens that are joined make one text of texts that would become one anyway. -/
theorem merge_pairUp_join {tokens others : List Token}
    (h : (Pairing.run {} (tokens.map Token.piece)).waiting = []) :
    Tree.merge ((pairUp ((Token.join tokens others).map Token.piece)).map Item.tree) =
      Tree.merge ((pairUp (tokens.map Token.piece)).map Item.tree ++
        (pairUp (others.map Token.piece)).map Item.tree) := by
  rcases Token.map_piece_join tokens others with hjoin | ⟨ps, x, y, qs, htokens, hothers, hjoin⟩
  · rw [hjoin, pairUp_append h, List.map_append]
  · rw [htokens, Pairing.run_append] at h
    have hps : (Pairing.run {} ps).waiting = [] := h
    have hone (z : List Char) : pairUp ((.text, z) :: qs) = .token .text z :: pairUp qs := by
      have hz : (Pairing.run {} [(TokenKind.text, z)]).waiting = [] := rfl
      exact pairUp_append hz
    have hlast : pairUp [(.text, x)] = [.token .text x] := rfl
    rw [hjoin, htokens, hothers, pairUp_append hps, pairUp_append hps, hone, hone, hlast]
    simp [Tree.merge, Item.tree, Tree.ofToken, Tree.before_before]

theorem Markdown.escape_append {s t : List Char} (h : s.getLast?.all Unicode.isWhiteSpace) :
    escape (s ++ t) = escape s ++ escape t := by
  have hspace (c : Char) (hc : s.getLast? = some c) : Unicode.isWhiteSpace c := by
    rwa [hc] at h
  rw [escape, escapeFrom_append fun c hc => Scan.not_isTrigger_of_isWhiteSpace (hspace c hc)]
  refine congrArg (_ ++ ·) (escapeFrom_congr ?_ t)
  cases hlast : s.getLast? with
  | none => rfl
  | some c => exact isAlphanumeric_of_isWhiteSpace (hspace c hlast)

namespace Tree

variable {tree : Tree} {ts us : List Tree} {s t : List Char}

/-- The markdown of trees in a row. -/
def allWritten (trees : List Tree) : List Char := Mark.writtenAll (allMarks trees)

theorem allWritten_append (ts us : List Tree) :
    allWritten (ts ++ us) = allWritten ts ++ allWritten us := by
  rw [allWritten, allMarks_append, Mark.writtenAll_append]
  rfl

theorem before_concat_text (tree : Tree) (ts : List Tree) (s : List Char) :
    ∃ us t, before tree (ts ++ [text s]) = us ++ [text (t ++ s)] := by
  by_cases htree : tree.isText
  · obtain ⟨r, rfl⟩ := isText_iff.1 htree
    cases ts with
    | nil => exact ⟨[], r, rfl⟩
    | cons u ts =>
      by_cases hu : u.isText
      · obtain ⟨q, rfl⟩ := isText_iff.1 hu
        exact ⟨text (r ++ q) :: ts, [], rfl⟩
      · exact ⟨text r :: u :: ts, [], before_cons_of_not_isText hu ..⟩
  · exact ⟨tree :: ts, [], before_of_not_isText htree _⟩

/-- Trees that end in a text are merged to trees that end in a longer one. -/
theorem exists_merge_concat_text (ts : List Tree) (s : List Char) :
    ∃ us t, merge (ts ++ [text s]) = us ++ [text (t ++ s)] := by
  induction ts with
  | nil => exact ⟨[], [], rfl⟩
  | cons tree ts ih =>
    obtain ⟨us, t, hus⟩ := ih
    obtain ⟨vs, r, hvs⟩ := before_concat_text tree us (t ++ s)
    refine ⟨vs, r ++ t, ?_⟩
    rw [List.cons_append, merge, List.foldr_cons, ← merge, hus, hvs, List.append_assoc]

/-- Trees after a text that ends in a white space are written as by themselves. -/
theorem allWritten_merge_append (hts : Merged (ts ++ [text s])) (hus : Merged us)
    (h : s.getLast?.all Unicode.isWhiteSpace) :
    allWritten (merge (ts ++ [text s] ++ us)) = allWritten (ts ++ [text s]) ++ allWritten us := by
  by_cases hmeet : ∀ u ∈ us.head?, ¬u.isText
  · have hmerged : Merged (ts ++ [text s] ++ us) :=
      merged_append.2 ⟨hts, hus, fun _ _ u hu htext => hmeet u hu htext.2⟩
    rw [hmerged.merge_eq, allWritten_append]
  · simp only [not_forall, Decidable.not_not] at hmeet
    obtain ⟨u, hu, htext⟩ := hmeet
    obtain ⟨t, rfl⟩ := isText_iff.1 htext
    obtain ⟨us, rfl⟩ := List.head?_eq_some_iff.1 hu
    obtain ⟨hbefore, -, hlast⟩ := merged_append.1 hts
    have hjoin : merge (ts ++ [text s] ++ text t :: us) = merge (ts ++ text (s ++ t) :: us) := by
      simp [merge, before_before]
    have hmerged : Merged (ts ++ text (s ++ t) :: us) := by
      refine merged_append.2 ⟨hbefore, List.isChain_cons.2 ⟨?_, hus.tail⟩, ?_⟩
      · exact (List.isChain_cons.1 hus).1
      · rintro a ha b hb ⟨hatext, -⟩
        exact hlast a ha (text s) rfl ⟨hatext, rfl⟩
    have hescape : allWritten (text (s ++ t) :: us) = allWritten [text s] ++ allWritten (text t :: us) := by
      simp [allWritten, allMarks, marks, Mark.written, Markdown.escape_append h]
    rw [hjoin, hmerged.merge_eq, allWritten_append, hescape, allWritten_append, List.append_assoc]

end Tree

/-! ### Documents side by side -/

variable {options : ScanOptions} {a b : List Char}

/-- What a text says, before texts that meet are merged. -/
def readItems (options : ScanOptions) (text : List Char) : List Tree :=
  (pairUp (scan options text).pieces).map Item.tree

theorem merge_readItems_append (hspace : a.getLast?.all Unicode.isWhiteSpace)
    (hclean : (scan options a).findings = #[])
    (hmatched : (Pairing.run {} (scan options a).pieces).waiting = []) (b : List Char) :
    Tree.merge (readItems options (a ++ b)) =
      Tree.merge (readItems options a ++ readItems options b) := by
  have htokens := (Stretch.scan_joined (b := b) hspace hclean).1
  have hshift : ((scan options b).tokens.toList.map (Token.shift (byteSize a))).map Token.piece =
      (scan options b).pieces := by
    rw [List.map_map]
    rfl
  rw [readItems, Scanned.pieces, htokens, merge_pairUp_join hmatched, hshift]
  rfl

/-- The last tree of a text that ends in a white space is a text that ends in one. -/
theorem exists_last_tree (hne : a ≠ []) (hspace : a.getLast?.all Unicode.isWhiteSpace)
    (hclean : (scan options a).findings = #[])
    (hmatched : (Pairing.run {} (scan options a).pieces).waiting = []) :
    ∃ ts s, Tree.merge (readItems options a) = ts ++ [.text s] ∧
      s.getLast?.all Unicode.isWhiteSpace := by
  obtain ⟨ps, x, hpieces, hx, hlast⟩ := exists_last_text hne hspace hclean
  rw [hpieces, Pairing.run_append] at hmatched
  have hps : (Pairing.run {} ps).waiting = [] := hmatched
  have htrees : readItems options a = (pairUp ps).map Item.tree ++ [.text x] := by
    rw [readItems, hpieces, pairUp_append hps, List.map_append]
    rfl
  obtain ⟨ts, t, hts⟩ := Tree.exists_merge_concat_text ((pairUp ps).map Item.tree) x
  refine ⟨ts, t ++ x, by rw [htrees, hts], ?_⟩
  rwa [List.getLast?_append_of_ne_nil _ hx]

theorem allWritten_readItems_append (hspace : a.getLast?.all Unicode.isWhiteSpace)
    (hclean : (scan options a).findings = #[])
    (hmatched : (Pairing.run {} (scan options a).pieces).waiting = []) (b : List Char) :
    Tree.allWritten (Tree.merge (readItems options (a ++ b))) =
      Tree.allWritten (Tree.merge (readItems options a)) ++
        Tree.allWritten (Tree.merge (readItems options b)) := by
  by_cases hne : a = []
  · have hnil : readItems options [] = [] := by
      simp [readItems, Scanned.pieces, scan, Scan.scanFrom, Scanned.addPlain, pairUp, Pairing.run,
        Pairing.items, Waiting.demote]
    rw [hne, hnil, List.nil_append]
    rfl
  · obtain ⟨ts, s, hts, hlast⟩ := exists_last_tree hne hspace hclean hmatched
    rw [merge_readItems_append hspace hclean hmatched, ← Tree.merge_append_merge,
      ← Tree.merge_merge_append, hts]
    exact Tree.allWritten_merge_append (hts ▸ Tree.merged_merge _) (Tree.merged_merge _) hlast

/-- A text that ends in a white space, and about which there is nothing to say, does not depend on what
comes after it. Its tokens come first, and what is said about the other text moves along. If no opener in
it is left by itself outside all containers, what both say stands side by side. -/
theorem parseWith_append (options : ScanOptions) (a b : List Char)
    (hspace : a.getLast?.all Unicode.isWhiteSpace) (hclean : (scan options a).warnings = #[]) :
    (scan options (a ++ b)).tokens.toList = Token.join (scan options a).tokens.toList
        ((scan options b).tokens.toList.map (Token.shift (byteSize a))) ∧
      (parseWith options (a ++ b)).warnings =
        (parseWith options b).warnings.map (Warning.shift (byteSize a)) ∧
      ∀ trees, syntaxTree? options a = some (.node .root trees) →
        (∀ kind ∈ SyntaxTree.looseKinds trees, ∀ tag : Tag, kind ≠ .token tag.opener) →
        (parseWith options (a ++ b)).document.markdown Document.rootId =
            (parseWith options a).document.markdown Document.rootId ++
              (parseWith options b).document.markdown Document.rootId ∧
          (parseWith options (a ++ b)).document.displayText Document.rootId =
            (parseWith options a).document.displayText Document.rootId ++
              (parseWith options b).document.displayText Document.rootId ∧
          (parseWith options (a ++ b)).document.textLength Document.rootId =
            (parseWith options a).document.textLength Document.rootId +
              (parseWith options b).document.textLength Document.rootId := by
  have hfindings : (scan options a).findings = #[] := by
    rwa [Scanned.warnings, Array.map_eq_empty_iff] at hclean
  obtain ⟨htokens, hshifted⟩ := Stretch.scan_joined (b := b) hspace hfindings
  refine ⟨htokens, ?_, ?_⟩
  · rw [← Array.toList_inj, Parse.warnings, Parse.warnings, Array.toList_map, Array.toList_map,
      Array.toList_map]
    have hsame : (parseWith options (a ++ b)).findings.toList =
        (parseWith options b).findings.toList.map (Finding.shift (byteSize a)) := hshifted
    rw [hsame, List.map_map, List.map_map]
    rfl
  · intro trees htree hloose
    have hroot : trees = (pairUp (scan options a).pieces).map Item.syntaxTree := by
      have hevents := Assembly.ofEvents?_assemble (scan options a).tokens.toList
      exact (SyntaxTree.node.inj (Option.some.inj (htree.symm.trans hevents))).2
    have hmatched : (Pairing.run {} (scan options a).pieces).waiting = [] := by
      refine Pairing.waiting_eq_nil fun kind hkind tag hopener => ?_
      rw [hroot, Item.looseKinds_map_syntaxTree] at hloose
      exact hloose _ (List.mem_map_of_mem hkind) tag (congrArg _ hopener)
    have hmarkdown (text : List Char) :
        (parseWith options text).document.markdown Document.rootId =
          Tree.allWritten (Tree.merge (readItems options text)) := by
      rw [document_parseWith, Document.markdown_ofTrees]
      rfl
    have hdisplay (text : List Char) :
        (parseWith options text).document.displayText Document.rootId =
          Tree.allShown (readItems options text) := displayText_parseWith options text
    have hshown : Tree.allShown (readItems options (a ++ b)) =
        Tree.allShown (readItems options a) ++ Tree.allShown (readItems options b) := by
      rw [← Tree.allShown_merge, merge_readItems_append hspace hfindings hmatched,
        Tree.allShown_merge, Tree.allShown_append]
    refine ⟨?_, ?_, ?_⟩
    · rw [hmarkdown, hmarkdown, hmarkdown, allWritten_readItems_append hspace hfindings hmatched]
    · rw [hdisplay, hdisplay, hdisplay, hshown]
    · rw [Document.textLength, Document.textLength, Document.textLength, hdisplay, hdisplay, hdisplay,
        hshown, List.length_append]

/-- A bold word and a white space. -/
def boldWord : List Char := "**b** ".toList

/-- A word that is underlined and an escape that is not needed. -/
def underlinedWord : List Char := "_ü_\\z".toList

theorem parseWith_append_boldWord : boldWord.getLast?.all Unicode.isWhiteSpace ∧
    (scan {} boldWord).warnings = #[] ∧
    (parse (boldWord ++ underlinedWord)).warnings =
      (parse underlinedWord).warnings.map (Warning.shift 6) ∧
    (parse (boldWord ++ underlinedWord)).document.markdown Document.rootId =
      (parse boldWord).document.markdown Document.rootId ++
        (parse underlinedWord).document.markdown Document.rootId := by
  have hspace : boldWord.getLast?.all Unicode.isWhiteSpace := by decide
  have hclean : (scan {} boldWord).warnings = #[] := by decide +kernel
  have htokens : (scan {} boldWord).tokens.toList = [⟨.bold, 0, ['*', '*']⟩, ⟨.text, 2, ['b']⟩,
      ⟨.bold, 3, ['*', '*']⟩, ⟨.text, 5, [' ']⟩] := by decide +kernel
  have htree : syntaxTree? {} boldWord = some (.node .root
      [.node (.styled .bold) [.token (.token .bold) ['*', '*'], .token (.token .text) ['b'],
        .token (.token .bold) ['*', '*']], .token (.token .text) [' ']]) := by
    rw [syntaxTree?, htokens]
    rfl
  obtain ⟨-, hwarnings, hmatched⟩ := parseWith_append {} boldWord underlinedWord hspace hclean
  refine ⟨hspace, hclean, hwarnings, (hmatched _ htree ?_).1⟩
  intro kind hkind tag hopener
  obtain rfl := List.mem_singleton.1 hkind
  cases tag with
  | styled style => cases style <;> cases hopener
  | link | image => cases hopener

end InlineMarkup
