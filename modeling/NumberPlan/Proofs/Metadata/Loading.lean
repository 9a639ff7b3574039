import NumberPlan.Metadata.Loading
import NumberPlan.Proofs.Metadata.Archive
import NumberPlan.Proofs.Threads.Guarded

/-!
# Files are loaded once, whatever the threads do

A load of a file has succeeded when its bytes could be read (`loadsOf`).  In every order of turns
a file has one such load at most, and a thread is told that the file is loaded only when all
records of that load are in the store:

    .answer t file (.ok ()) ∈ s.log → loadsOf parse file s.deeds = [rs] ∧ rs is shown    (loads_once)

where `s` is the system after the turns.  What carries this is `Loading`: each file is new, being
filled in, or loaded.  A thread that is alone does what `Archive.require` does (`require_alone`).
-/

namespace NumberPlan

/-- What the threads do to an archive. -/
abbrev LoadDeed := Deed String (Option (List UInt8)) LoadStage

namespace Archive

/-- The records of a load of the file that has succeeded. -/
def loads? (parse : FileParser) (file : String) : LoadDeed → Option (List Record)
  | .work f (.read bytes) _ => if f = file then (parse bytes).toOption else none
  | _ => none

/-- The record that the store takes in. -/
def accepts? : LoadDeed → Option Record
  | .work _ (.fill (r :: _)) _ => some r
  | _ => none

/-- The loads of a file that have succeeded. -/
def loadsOf (parse : FileParser) (file : String) (ds : List LoadDeed) : List (List Record) :=
  ds.filterMap (loads? parse file)

/-- The records that the store has taken in, in order. -/
def accepted (ds : List LoadDeed) : List Record := ds.filterMap accepts?

section

variable {parse : FileParser} {ds : List LoadDeed}

theorem loadsOf_snoc (file : String) (d : LoadDeed) :
    loadsOf parse file (ds ++ [d]) = loadsOf parse file ds ++ (loads? parse file d).toList :=
  filterMap_snoc (loads? parse file) ds d

theorem accepted_snoc (d : LoadDeed) :
    accepted (ds ++ [d]) = accepted ds ++ (accepts? d).toList :=
  filterMap_snoc accepts? ds d

end

/-! ## Each file is new, being filled in, or loaded -/

/-- The task is not past the reading of the file. -/
def Early (task : Option (String × LoadStage)) (file : String) : Prop :=
  ∀ rest, task ≠ some (file, .fill rest)

/-- How the archive stands with what was done, and with the task under way. -/
structure Loading (parse : FileParser) (ds : List LoadDeed) (a : Archive)
    (task : Option (String × LoadStage)) : Prop where
  shown : a.store = Store.empty.acceptAll (accepted ds)
  unmarked : ∀ file w, task = some (file, w) → file ∉ a.loaded
  new : ∀ file, file ∉ a.loaded → Early task file → loadsOf parse file ds = []
  filling : ∀ file rest, task = some (file, .fill rest) →
    ∃ rs, loadsOf parse file ds = [rs] ∧ ∀ r ∈ rs, r ∈ accepted ds ∨ r ∈ rest
  loaded : ∀ file ∈ a.loaded, ∃ rs, loadsOf parse file ds = [rs] ∧ ∀ r ∈ rs, r ∈ accepted ds

section

variable {parse : FileParser} {ds : List LoadDeed} {a : Archive}
  {task : Option (String × LoadStage)}

theorem loading_nothing : Loading parse [] .empty none := by
  constructor
  · rfl
  · exact fun file w h => nomatch h
  · exact fun file _ _ => rfl
  · exact fun file rest h => nomatch h
  · exact fun file h => nomatch h

section

variable (h : Loading parse ds a task)

include h

/-- Other deeds make no difference. -/
theorem Loading.idle (d : LoadDeed) (hloads : ∀ file, loads? parse file d = none)
    (haccepts : accepts? d = none) : Loading parse (ds ++ [d]) a task := by
  have hl : ∀ file, loadsOf parse file (ds ++ [d]) = loadsOf parse file ds := by
    intro file
    rw [loadsOf_snoc, hloads file]
    exact List.append_nil _
  have ha : accepted (ds ++ [d]) = accepted ds := by
    rw [accepted_snoc, haccepts]
    exact List.append_nil _
  constructor
  · rw [ha]
    exact h.shown
  · exact h.unmarked
  · intro file
    rw [hl]
    exact h.new file
  · intro file
    rw [hl, ha]
    exact h.filling file
  · intro file
    rw [hl, ha]
    exact h.loaded file

/-- Before a file is read, the task may change or end. -/
theorem Loading.retask (task' : Option (String × LoadStage)) (hearly : ∀ file, Early task file)
    (hearly' : ∀ file, Early task' file)
    (hnew : ∀ file w, task' = some (file, w) → file ∉ a.loaded) : Loading parse ds a task' := by
  constructor
  · exact h.shown
  · exact hnew
  · exact fun file hfile _ => h.new file hfile (hearly file)
  · exact fun file rest heq => absurd heq (hearly' file rest)
  · exact h.loaded

/-- Records that have been taken in are shown, or others are that came before them. -/
theorem Loading.find?_of_accepted (r : Record) (hr : r ∈ accepted ds) :
    ∃ before first later, accepted ds = before ++ first :: later ∧ r ∈ first :: later ∧
      first.key = r.key ∧ a.store.find? r.key = some first := by
  have hsome : ((accepted ds).find? fun x => x.key = r.key).isSome = true :=
    List.find?_isSome.mpr ⟨r, hr, decide_eq_true rfl⟩
  obtain ⟨first, hfirst⟩ := Option.isSome_iff_exists.mp hsome
  obtain ⟨hkey, before, later, hsplit, hbefore⟩ := List.find?_eq_some_iff_append.mp hfirst
  refine ⟨before, first, later, hsplit, ?_, of_decide_eq_true hkey, ?_⟩
  · rw [hsplit] at hr
    rcases List.mem_append.mp hr with hin | hin
    · have hother : ¬r.key = r.key := by simpa using hbefore r hin
      exact absurd rfl hother
    · exact hin
  · rw [h.shown, Store.find?_acceptAll, Store.find?_empty, hfirst]
    rfl

end

/-- A file that could be read is to be filled in. -/
theorem Loading.read (file : String) (bytes : List UInt8) (supply : Option (List UInt8))
    (rs : List Record) (h : Loading parse ds a (some (file, .read bytes)))
    (hparse : parse bytes = .ok rs) :
    Loading parse (ds ++ [.work file (.read bytes) supply]) a (some (file, .fill rs)) := by
  have hearly : ∀ f, Early (some (file, .read bytes)) f := by
    intro f rest heq
    cases heq
  have hfile : file ∉ a.loaded := h.unmarked file _ rfl
  have hself : loadsOf parse file (ds ++ [.work file (.read bytes) supply]) = [rs] := by
    rw [loadsOf_snoc, h.new file hfile (hearly file), loads?, if_pos rfl, hparse]
    rfl
  have hother : ∀ f, f ≠ file →
      loadsOf parse f (ds ++ [.work file (.read bytes) supply]) = loadsOf parse f ds := by
    intro f hf
    rw [loadsOf_snoc, loads?, if_neg (Ne.symm hf)]
    exact List.append_nil _
  have ha : accepted (ds ++ [.work file (.read bytes) supply]) = accepted ds := by
    rw [accepted_snoc]
    exact List.append_nil _
  constructor
  · rw [ha]
    exact h.shown
  · intro f w heq
    cases heq
    exact hfile
  · intro f hf hnot
    have hne : f ≠ file := by
      rintro rfl
      exact hnot rs rfl
    rw [hother f hne]
    exact h.new f hf (hearly f)
  · intro f rest heq
    cases heq
    exact ⟨rs, hself, fun r hr => Or.inr hr⟩
  · intro f hf
    have hne : f ≠ file := by
      rintro rfl
      exact hfile hf
    rw [hother f hne, ha]
    exact h.loaded f hf

theorem Loading.accept (file : String) (r : Record) (rest : List Record)
    (supply : Option (List UInt8)) (h : Loading parse ds a (some (file, .fill (r :: rest)))) :
    Loading parse (ds ++ [.work file (.fill (r :: rest)) supply])
      { a with store := a.store.accept r } (some (file, .fill rest)) := by
  have hl : ∀ f, loadsOf parse f (ds ++ [.work file (.fill (r :: rest)) supply]) =
      loadsOf parse f ds := by
    intro f
    rw [loadsOf_snoc]
    exact List.append_nil _
  have ha : accepted (ds ++ [.work file (.fill (r :: rest)) supply]) = accepted ds ++ [r] :=
    accepted_snoc _
  have hold : ∀ x ∈ accepted ds, x ∈ accepted ds ++ [r] := fun x hx => List.mem_append_left _ hx
  constructor
  · show a.store.accept r = _
    rw [ha, Store.acceptAll_snoc, h.shown]
  · intro f w heq
    cases heq
    exact h.unmarked file _ rfl
  · intro f hf hnot
    rw [hl]
    refine h.new f hf fun rest' heq => ?_
    cases heq
    exact hnot rest rfl
  · intro f rest' heq
    cases heq
    obtain ⟨rs, hrs, hall⟩ := h.filling file (r :: rest) rfl
    refine ⟨rs, (hl file).trans hrs, fun x hx => ?_⟩
    rw [ha]
    rcases hall x hx with hin | hin
    · exact Or.inl (hold x hin)
    · rcases List.mem_cons.mp hin with rfl | hin
      · exact Or.inl (List.mem_append_right _ (List.mem_singleton_self x))
      · exact Or.inr hin
  · intro f hf
    obtain ⟨rs, hrs, hall⟩ := h.loaded f hf
    refine ⟨rs, (hl f).trans hrs, fun x hx => ?_⟩
    rw [ha]
    exact hold x (hall x hx)

theorem Loading.mark (file : String) (h : Loading parse ds a (some (file, .fill []))) :
    Loading parse ds { a with loaded := file :: a.loaded } none := by
  constructor
  · exact h.shown
  · exact fun f w heq => nomatch heq
  · intro f hf _
    have hold : f ∉ a.loaded := fun hin => hf (List.mem_cons_of_mem _ hin)
    refine h.new f hold fun rest heq => ?_
    cases heq
    exact hf (List.mem_cons_self ..)
  · exact fun f rest heq => nomatch heq
  · intro f hf
    rcases List.mem_cons.mp hf with rfl | hold
    · obtain ⟨rs, hrs, hall⟩ := h.filling f [] rfl
      refine ⟨rs, hrs, fun r hr => ?_⟩
      rcases hall r hr with hin | hin
      · exact hin
      · cases hin
    · exact h.loaded f hold

end

/-! ## Turns -/

section

variable (parse : FileParser) (file : String) (a : Archive)

/-- The steps of the work on a file. -/
inductive Works :
    LoadStage → Option (List UInt8) → Progress LoadStage (Except MetadataError Unit) × Archive → Prop
  | missing : Works .ask none (.done (.error (.missing file)), a)
  | supplied (bytes : List UInt8) : Works .ask (some bytes) (.more (.read bytes), a)
  | malformed (bytes : List UInt8) (supply : Option (List UInt8)) (e : CollectionError)
      (h : parse bytes = .error e) :
      Works (.read bytes) supply (.done (.error (.malformed file e)), a)
  | parsed (bytes : List UInt8) (supply : Option (List UInt8)) (rs : List Record)
      (h : parse bytes = .ok rs) : Works (.read bytes) supply (.more (.fill rs), a)
  | accepted (r : Record) (rest : List Record) (supply : Option (List UInt8)) :
      Works (.fill (r :: rest)) supply (.more (.fill rest), { a with store := a.store.accept r })
  | marked (supply : Option (List UInt8)) :
      Works (.fill []) supply (.done (.ok ()), { a with loaded := file :: a.loaded })

theorem works (w : LoadStage) (supply : Option (List UInt8)) :
    Works parse file a w supply ((service parse).work file w supply a) := by
  cases w with
  | ask =>
    cases supply with
    | none => exact .missing
    | some bytes => exact .supplied bytes
  | read bytes =>
    simp only [service]
    split
    · next e hparse => exact .malformed bytes supply e hparse
    · next rs hparse => exact .parsed bytes supply rs hparse
  | fill rest =>
    cases rest with
    | nil => exact .marked supply
    | cons r rest => exact .accepted r rest supply

end

/-- An answer that a file is loaded is right. -/
def Told (a : Archive) (file : String) (answer : Except MetadataError Unit) : Prop :=
  answer = .ok () → file ∈ a.loaded

theorem loading_keeps (parse : FileParser) :
    (service parse).Keeps (Loading parse) (fun _ => Told) where
  look ds a task file found a' h hlook := by
    obtain ⟨-, rfl⟩ := Prod.mk.inj hlook
    exact h.idle (.look file) (fun _ => rfl) rfl
  hit ds a task file answer a' h hlook _ := by
    obtain ⟨hfound, rfl⟩ := Prod.mk.inj hlook
    by_cases hfile : a.isLoaded file = true
    · exact (a.isLoaded_iff file).mp hfile
    · rw [if_neg hfile] at hfound
      cases hfound
  miss ds a file a' h hlook := by
    obtain ⟨hnone, rfl⟩ := Prod.mk.inj hlook
    have hfile : file ∉ a.loaded := by
      intro hin
      rw [if_pos ((a.isLoaded_iff file).mpr hin)] at hnone
      cases hnone
    have hidle := h.idle (.look file) (fun _ => rfl) rfl
    refine hidle.retask _ (fun f rest => nofun) (fun f rest => nofun) fun f w heq => ?_
    cases heq
    exact hfile
  more ds a file w supply w' a' h hwork := by
    have hworks := works parse file a w supply
    rw [hwork] at hworks
    cases hworks with
    | supplied bytes =>
      have hidle := h.idle (.work file .ask (some bytes)) (fun _ => rfl) rfl
      refine hidle.retask _ (fun f rest => nofun) (fun f rest => nofun) fun f w heq => ?_
      cases heq
      exact h.unmarked file .ask rfl
    | parsed bytes _ rs hparse => exact h.read file bytes supply rs hparse
    | accepted r rest => exact h.accept file r rest supply
  done ds a file w supply answer a' h hwork := by
    have hworks := works parse file a w supply
    rw [hwork] at hworks
    cases hworks with
    | missing =>
      have hidle := h.idle (.work file .ask none) (fun _ => rfl) rfl
      exact ⟨hidle.retask _ (fun f rest => nofun) (fun f rest => nofun) nofun, nofun⟩
    | malformed bytes _ e hparse =>
      have hnone : ∀ f, loads? parse f (.work file (.read bytes) supply) = none := by
        intro f
        rw [loads?, hparse]
        exact ite_self none
      have hidle := h.idle (.work file (.read bytes) supply) hnone rfl
      exact ⟨hidle.retask _ (fun f rest => nofun) (fun f rest => nofun) nofun, nofun⟩
    | marked =>
      have hidle := h.idle (.work file (.fill []) supply) (fun _ => rfl) rfl
      exact ⟨hidle.mark file, fun _ => List.mem_cons_self ..⟩
  good_look ds a task file answer file' found a' _ h hlook := by
    obtain ⟨-, rfl⟩ := Prod.mk.inj hlook
    exact h
  good_work ds a file answer file' w supply progress a' _ h hwork := by
    have hworks := works parse file' a w supply
    rw [hwork] at hworks
    intro hanswer
    cases hworks with
    | marked => exact List.mem_cons_of_mem _ (h hanswer)
    | missing | supplied | malformed | parsed | accepted => exact h hanswer

theorem Loading.length_loadsOf_le {parse : FileParser} {ds : List LoadDeed} {a : Archive}
    {task : Option (String × LoadStage)} (h : Loading parse ds a task) (file : String) :
    (loadsOf parse file ds).length ≤ 1 := by
  by_cases hloaded : file ∈ a.loaded
  · obtain ⟨rs, hrs, -⟩ := h.loaded file hloaded
    rw [hrs]
    exact Nat.le_refl 1
  · by_cases hearly : Early task file
    · rw [h.new file hloaded hearly]
      exact Nat.zero_le 1
    · obtain ⟨rest, htask⟩ := not_forall_not.mp hearly
      obtain ⟨rs, hrs, -⟩ := h.filling file rest htask
      rw [hrs]
      exact Nat.le_refl 1

/-- In every order of turns, a file is loaded once at most, and who is told that it is loaded finds
the records of that load. -/
theorem loads_once (parse : FileParser) (turns : List (Turn String (Option (List UInt8))))
    (file : String) :
    (loadsOf parse file ((service parse).after .empty turns).deeds).length ≤ 1 ∧
    ∀ t, .answer t file (.ok ()) ∈ ((service parse).after .empty turns).log →
      ∃ rs, loadsOf parse file ((service parse).after .empty turns).deeds = [rs] ∧
        ∀ r ∈ rs, ∃ before first later,
          accepted ((service parse).after .empty turns).deeds = before ++ first :: later ∧
          r ∈ first :: later ∧ first.key = r.key ∧
          ((service parse).after .empty turns).shared.store.find? r.key = some first := by
  have hupheld := (loading_keeps parse).upheld_after .empty loading_nothing turns
  refine ⟨hupheld.core.length_loadsOf_le file, fun t hanswer => ?_⟩
  -- the answer says that the file is marked, and files are marked only when they are filled in
  have hloaded := hupheld.answered t file (.ok ()) hanswer rfl
  obtain ⟨rs, hrs, hall⟩ := hupheld.core.loaded file hloaded
  exact ⟨rs, hrs, fun r hr => hupheld.core.find?_of_accepted r (hall r hr)⟩

/-- Two threads want the file at once; the first finds it missing, and comes back. -/
def race : List (Turn String (Option (List UInt8))) :=
  [0, 1, 1, 0, 0, 1, 0, 0, 0, 0, 0, 1, 0, 1, 1, 0, 1, 1, 1, 1, 0, 0, 0, 0].map fun t =>
    ⟨t, "plan", if t = 0 then none else some [10, 6, 74, 2, 85, 83, 80, 1]⟩

theorem loads_once_race :
    .answer 0 "plan" (.ok ()) ∈
        ((service (parseFile .strict)).after .empty race).log ∧
      ∃ rs, loadsOf (parseFile .strict) "plan"
        ((service (parseFile .strict)).after .empty race).deeds =
          [rs] := by
  have hanswer : .answer 0 "plan" (.ok ()) ∈
      ((service (parseFile .strict)).after .empty race).log :=
    List.mem_of_getLast? rfl
  obtain ⟨-, hshown⟩ := loads_once (parseFile .strict) race "plan"
  obtain ⟨rs, hrs, -⟩ := hshown 0 hanswer
  exact ⟨hanswer, rs, hrs⟩

/-! ## One thread alone -/

theorem completes_fill (parse : FileParser) (file : String) (supply : Option (List UInt8))
    (rest : List Record) :
    ∀ a, (service parse).Completes file supply (.ok ()) ⟨file :: a.loaded, a.store.acceptAll rest⟩
      (.fill rest) a := by
  induction rest with
  | nil =>
    intro a
    exact .done _ _ rfl
  | cons r rest ih =>
    intro a
    exact .more _ _ _ _ rfl (ih { a with store := a.store.accept r })

theorem readFile_cases (parse : FileParser) (files : Files) (file : String) :
    (files file = none ∧ readFile parse files file = .error (.missing file)) ∨
      (∃ bytes e, files file = some bytes ∧ parse bytes = .error e ∧
        readFile parse files file = .error (.malformed file e)) ∨
      ∃ bytes rs, files file = some bytes ∧ parse bytes = .ok rs ∧
        readFile parse files file = .ok rs := by
  unfold readFile
  split
  · next hfile => exact Or.inl ⟨hfile, rfl⟩
  · next bytes hfile =>
    split
    · next e hparse => exact Or.inr (Or.inl ⟨bytes, e, hfile, hparse, rfl⟩)
    · next rs hparse => exact Or.inr (Or.inr ⟨bytes, rs, hfile, hparse, rfl⟩)

theorem serves_require (parse : FileParser) (files : Files) (file : String) (a : Archive) :
    (service parse).Serves file (files file)
      ((a.require parse files file).answer.map fun _ => ()) (a.require parse files file).state a := by
  unfold require
  split
  · next hloaded =>
    apply Service.Serves.hit
    simp only [service, hloaded, if_true]
    rfl
  · next hnew =>
    have hlook : (service parse).look file a = (none, a) := by
      simp only [service, hnew]
      rfl
    refine .worked a a a hlook hlook ?_
    rcases readFile_cases parse files file with
      ⟨hfile, hread⟩ | ⟨bytes, e, hfile, hparse, hread⟩ | ⟨bytes, rs, hfile, hparse, hread⟩
    · rw [hread, hfile]
      exact .done _ _ rfl
    · rw [hread, hfile]
      refine .more _ (.read bytes) a a rfl (.done _ _ ?_)
      simp only [service, hparse]
      rfl
    · rw [hread, hfile]
      refine .more _ (.read bytes) a a rfl (.more _ (.fill rs) a a ?_ ?_)
      · simp only [service, hparse]
      · exact completes_fill _ file _ rs a

/-- A thread that is alone gets the answer, and leaves the archive, of `require`. -/
theorem require_alone (parse : FileParser) (files : Files) (file : String) (a : Archive) (t : Nat) :
    ∃ n, .answer t file ((a.require parse files file).answer.map fun _ => ()) ∈
        ((service parse).after a (List.replicate n ⟨t, file, files file⟩)).log ∧
      ((service parse).after a (List.replicate n ⟨t, file, files file⟩)).At t .idle none
        (a.require parse files file).state := by
  let x : Turn String (Option (List UInt8)) := ⟨t, file, files file⟩
  let s : System String Archive (Option (List UInt8)) LoadStage (Except MetadataError Unit) :=
    ⟨a, none, fun _ => .idle, []⟩
  have hidle : s.At x.thread .idle none a := ⟨rfl, rfl, rfl⟩
  obtain ⟨n, hend, hanswer⟩ := hidle.served (serves_require parse files file a)
  exact ⟨n, hanswer, hend⟩

end Archive

end NumberPlan
