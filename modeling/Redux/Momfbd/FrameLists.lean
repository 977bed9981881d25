import Mathlib.Data.List.Forall2
import Redux.Lib.Layout

/-!
# Momfbd.FrameLists — the files of a channel and the frames in them

`checkData` goes through the files of a channel: it counts the frames that are left after the discards, keeps
their numbers, and makes the list of wavefronts.  All of that is kept in the channel, and it is from there that
a second call starts.
-/

namespace Redux.Momfbd.Frames

/-! ## Model -/

/-- How a call ends: undefined, with `false` or an exception, or with a result. -/
inductive Outcome (σ : Type)
  | undefined
  | refused
  | accepted (result : σ)
  deriving DecidableEq

namespace Outcome

variable {σ τ : Type}

def bind : Outcome σ → (σ → Outcome τ) → Outcome τ
  | undefined, _ => undefined
  | refused, _ => refused
  | accepted s, f => f s

def map (f : σ → τ) (o : Outcome σ) : Outcome τ := o.bind fun s => accepted (f s)

end Outcome

/-- A file with images: its sizes, its pixels, and what `getFrameNumbers( offset )` says. -/
structure File (T : Type) where
  dims : List ℕ
  pixels : ℕ → T
  frameNumbers : ℕ → List ℕ
  fits : (dims.filter (· ≠ 0)).prod < 2 ^ 63

/-- A `Channel` and the files it may find.  `format` is `boost::format( imageTemplate ) % number`, which may throw;
`present` is about the working directory, and `disk` about `imageDataDir`: nothing, or a regular file, which may
not be readable. -/
structure Channel (Name T : Type) where
  imageTemplate : Name
  format : BitVec 32 → Option Name
  present : Name → Bool
  disk : Name → Option (Option (File T))
  imageNumberOffset : BitVec 32
  (discardFirst discardLast : BitVec 16)
  incomplete : Bool
  (fileNumbers waveFrontList : List (BitVec 32))
  (imgSizeY imgSizeX : BitVec 16)

/-- What `checkData` leaves in the channel. -/
@[ext]
structure State where
  (fileNumbers waveFrontList : List (BitVec 32))
  nFrames : List ℕ
  frameNumbersPerFile : List (List ℕ)
  nTotalFrames : BitVec 32
  deriving DecidableEq

/-- `vector::resize`. -/
def resize {T : Type} (v : List T) (n : ℕ) (value : T) : List T := v.take n ++ List.replicate (n - v.length) value

namespace Channel

variable {Name T : Type} (c : Channel Name T)

/-- A channel as it is configured. -/
def start : State := ⟨c.fileNumbers, c.waveFrontList, [], [], 0⟩

def discard : ℕ := c.discardFirst.toNat + c.discardLast.toNat

/-- The loop that erases the numbers of files that are not there. -/
def eraseMissing : List (BitVec 32) → Outcome (List (BitVec 32))
  | [] => .accepted []
  | n :: ns => match c.format (c.imageNumberOffset + n) with
    | none => .refused
    | some fn => (eraseMissing ns).map fun ns => if c.present fn || (c.disk fn).isSome then n :: ns else ns

def keepPresent (fileNumbers : List (BitVec 32)) : Outcome (List (BitVec 32)) :=
  if c.incomplete then
    (c.eraseMissing fileNumbers).bind fun ns => if ns = [] then .refused else .accepted ns
  else .accepted fileNumbers

/-- The frame numbers without those of the frames to discard; undefined if there are not as many. -/
def erase (fNums : List ℕ) : Outcome (List ℕ) :=
  if fNums.length < c.discard then .undefined
  else .accepted ((fNums.drop c.discardFirst.toNat).take (fNums.length - c.discard))

/-- One file: the number of frames, which stays `nF` for an image, and their numbers. -/
def checkFile (fn : Name) (number nF : ℕ) : Outcome (ℕ × List ℕ) :=
  match c.disk fn with
  | some (some file) => (c.erase (file.frameNumbers number)).bind fun fNums =>
    match file.dims with
    | [k, _, _] => .accepted ((k + 2 ^ 64 - c.discard) % 2 ^ 64, fNums)
    | [_, _] => .accepted (nF, fNums)
    | _ => .refused
  | _ => .refused

/-- `template + numbers`; a number of frames that is not there yet is 1. -/
def checkFiles : List (BitVec 32) → List ℕ → Outcome (List (ℕ × List ℕ))
  | [], _ => .accepted []
  | n :: ns, nFrames => match c.format (n + c.imageNumberOffset) with
    | none => .refused
    | some fn => (c.checkFile fn (n + c.imageNumberOffset).toNat (nFrames.headD 1)).bind fun x =>
      (checkFiles ns nFrames.tail).map (x :: ·)

/-- The wavefronts that are there, or as many as there are files. -/
def resized (waveFrontList : List (BitVec 32)) (nFiles : ℕ) : List (BitVec 32) :=
  if waveFrontList.length ≠ nFiles then resize waveFrontList nFiles c.imageNumberOffset else waveFrontList

/-- The lists, from the frames of the files.  The numbers of the files are added to as many wavefronts, whether
or not there are as many numbers, and the wavefronts are replaced if there is not one frame for each file. -/
def makeLists (waveFrontList fileNumbers : List (BitVec 32)) (xs : List (ℕ × List ℕ)) : Outcome State :=
  let nFiles := max 1 fileNumbers.length
  let nTotalFrames := BitVec.ofNat 32 (xs.map Prod.fst).sum
  let waveFrontList := c.resized waveFrontList nFiles
  if waveFrontList.length = nFiles ∧ fileNumbers.length < waveFrontList.length then .undefined
  else
    let waveFrontList := if waveFrontList.length = nFiles then List.zipWith (· + ·) waveFrontList fileNumbers
      else waveFrontList
    .accepted ⟨fileNumbers,
      if nFiles ≠ nTotalFrames.toNat then (xs.flatMap Prod.snd).map (BitVec.ofNat 32) else waveFrontList,
      xs.map Prod.fst, xs.map Prod.snd, nTotalFrames⟩

/-- `Channel::checkData`, as far as it is about the images. -/
def checkData (s : State) : Outcome State :=
  (c.keepPresent s.fileNumbers).bind fun fileNumbers =>
    (if fileNumbers = [] then (c.checkFile c.imageTemplate 0 (s.nFrames.headD 1)).map fun x => [x]
      else c.checkFiles fileNumbers s.nFrames).bind fun xs => c.makeLists s.waveFrontList fileNumbers xs

end Channel

/-! ## Outcomes -/

section Outcomes

variable {σ τ : Type} {o : Outcome σ} {s : σ} {t : τ}

theorem Outcome.bind_accepted {f : σ → Outcome τ} :
    o.bind f = .accepted t ↔ ∃ s, o = .accepted s ∧ f s = .accepted t := by
  cases o with
  | undefined => exact iff_of_false nofun fun ⟨_, h, _⟩ => nomatch h
  | refused => exact iff_of_false nofun fun ⟨_, h, _⟩ => nomatch h
  | accepted s => exact ⟨fun h => ⟨s, rfl, h⟩, fun ⟨_, h, h'⟩ => Outcome.accepted.inj h ▸ h'⟩

theorem Outcome.map_accepted {f : σ → τ} : o.map f = .accepted t ↔ ∃ s, o = .accepted s ∧ f s = t := by
  rw [Outcome.map, Outcome.bind_accepted]
  exact exists_congr fun s => and_congr_right fun _ => ⟨Outcome.accepted.inj, congrArg _⟩

end Outcomes

/-! ## One file -/

section Files

variable {Name T : Type} {c : Channel Name T} {fn : Name} {number nF : ℕ} {n : BitVec 32}
  {x : ℕ × List ℕ} {ns fileNumbers : List (BitVec 32)} {xs : List (ℕ × List ℕ)} {nFrames : List ℕ}

/-- The frames of a file. -/
def File.frames (file : File T) : ℕ :=
  match file.dims with
  | [k, _, _] => k
  | _ => 1

/-- The frames that are left of a file. -/
def Channel.left (c : Channel Name T) (file : File T) : ℕ := file.frames - c.discard

/-- The numbers of the frames that are left. -/
def Channel.kept (c : Channel Name T) (fNums : List ℕ) : List ℕ :=
  (fNums.drop c.discardFirst.toNat).take (fNums.length - c.discard)

/-- What is known of a file that is accepted, with its number of frames and their numbers. -/
structure Checked (c : Channel Name T) (file : File T) (number nF : ℕ) (x : ℕ × List ℕ) : Prop where
  enough : c.discard ≤ (file.frameNumbers number).length
  count : (∃ k h w, file.dims = [k, h, w] ∧ x.1 = (k + 2 ^ 64 - c.discard) % 2 ^ 64) ∨
    ∃ h w, file.dims = [h, w] ∧ x.1 = nF
  numbers : x.2 = c.kept (file.frameNumbers number)

theorem checkFile_accepted : c.checkFile fn number nF = .accepted x ↔
    ∃ file, c.disk fn = some (some file) ∧ Checked c file number nF x := by
  obtain ⟨count, fNums⟩ := x
  unfold Channel.checkFile
  rcases hdisk : c.disk fn with _ | _ | file
  · exact iff_of_false nofun fun ⟨_, h, _⟩ => nomatch h
  · exact iff_of_false nofun fun ⟨_, h, _⟩ => nomatch h
  · simp only [Outcome.bind_accepted, Channel.erase]
    constructor
    · rintro ⟨kept, hkept, h⟩
      split_ifs at hkept with hfew
      obtain rfl := Outcome.accepted.inj hkept
      refine ⟨file, rfl, not_lt.1 hfew, ?_, ?_⟩
      · split at h
        · rename_i k h' w hdims
          exact .inl ⟨k, h', w, hdims, (Prod.mk.inj (Outcome.accepted.inj h)).1.symm⟩
        · rename_i h' w hdims
          exact .inr ⟨h', w, hdims, (Prod.mk.inj (Outcome.accepted.inj h)).1.symm⟩
        · exact absurd h nofun
      · split at h
        · exact (Prod.mk.inj (Outcome.accepted.inj h)).2.symm
        · exact (Prod.mk.inj (Outcome.accepted.inj h)).2.symm
        · exact absurd h nofun
    · rintro ⟨file', hfile, henough, hcount, hnumbers⟩
      obtain rfl := Option.some.inj (Option.some.inj hfile)
      obtain rfl : fNums = _ := hnumbers
      refine ⟨_, if_neg (not_lt.2 henough), ?_⟩
      rcases hcount with ⟨k, h, w, hdims, rfl⟩ | ⟨h, w, hdims, rfl⟩
      · rw [hdims]
        rfl
      · rw [hdims]
        rfl

/-- The file that belongs to a number, for the check. -/
def Channel.file (c : Channel Name T) (n : BitVec 32) : Option (File T) :=
  ((c.format (n + c.imageNumberOffset)).bind c.disk).join

/-- A number is accepted with its file. -/
def Accepts (c : Channel Name T) (nF : ℕ) (n : BitVec 32) (x : ℕ × List ℕ) : Prop :=
  ∃ file, c.file n = some file ∧ Checked c file (n + c.imageNumberOffset).toNat nF x

theorem checkFiles_cons : c.checkFiles (n :: ns) nFrames = .accepted (x :: xs) ↔
    Accepts c (nFrames.headD 1) n x ∧ c.checkFiles ns nFrames.tail = .accepted xs := by
  rw [Channel.checkFiles]
  unfold Accepts Channel.file
  rcases c.format (n + c.imageNumberOffset) with _ | fn
  · exact iff_of_false nofun fun h => by simp at h
  · simp only [Outcome.bind_accepted, Outcome.map_accepted, checkFile_accepted, Option.bind_some,
      Option.join_eq_some_iff, List.cons.injEq]
    constructor
    · rintro ⟨_, hx, _, hxs, rfl, rfl⟩
      exact ⟨hx, hxs⟩
    · rintro ⟨hx, hxs⟩
      exact ⟨x, hx, xs, hxs, rfl, rfl⟩

theorem checkFiles_nil_right : c.checkFiles (n :: ns) nFrames ≠ .accepted [] := by
  rw [Channel.checkFiles]
  split
  · exact nofun
  · simp only [ne_eq, Outcome.bind_accepted, Outcome.map_accepted, reduceCtorEq, and_false, exists_false,
      not_false_eq_true]

/-- All files of a channel that is checked for the first time. -/
theorem checkFiles_start : ∀ {ns : List (BitVec 32)} {xs : List (ℕ × List ℕ)},
    c.checkFiles ns [] = .accepted xs ↔ List.Forall₂ (Accepts c 1) ns xs
  | [], xs => by
    rw [Channel.checkFiles, Outcome.accepted.injEq, List.forall₂_nil_left_iff]
    exact eq_comm
  | n :: ns, [] => iff_of_false checkFiles_nil_right nofun
  | n :: ns, x :: xs => by
    rw [checkFiles_cons, List.forall₂_cons]
    exact and_congr_right fun _ => checkFiles_start

/-- **Once there are numbers of frames, they stay.** -/
theorem checkFiles_again : ∀ {ns : List (BitVec 32)} {nFrames : List ℕ} {xs : List (ℕ × List ℕ)},
    c.checkFiles ns nFrames = .accepted xs → c.checkFiles ns (xs.map Prod.fst) = .accepted xs
  | [], _, xs, h => h
  | n :: ns, _, [], h => absurd h checkFiles_nil_right
  | n :: ns, nFrames, x :: xs, h => by
    obtain ⟨⟨file, hfile, henough, hcount, hnumbers⟩, hxs⟩ := checkFiles_cons.1 h
    refine checkFiles_cons.2 ⟨⟨file, hfile, henough, ?_, hnumbers⟩, checkFiles_again hxs⟩
    exact hcount.imp id fun ⟨h, w, hdims, _⟩ => ⟨h, w, hdims, rfl⟩

theorem eraseMissing_again : ∀ {ns ns' : List (BitVec 32)}, c.eraseMissing ns = .accepted ns' →
    c.eraseMissing ns' = .accepted ns'
  | [], _, h => Outcome.accepted.inj h ▸ rfl
  | n :: ns, ns', h => by
    rw [Channel.eraseMissing] at h
    split at h
    · exact absurd h nofun
    · rename_i fn hfn
      obtain ⟨rest, hrest, rfl⟩ := Outcome.map_accepted.1 h
      have ih := eraseMissing_again hrest
      split_ifs with hthere
      · rw [Channel.eraseMissing, hfn]
        dsimp only
        rw [ih, Outcome.map, Outcome.bind, if_pos hthere]
      · exact ih

/-- What is there is there again. -/
theorem keepPresent_again {ns ns' : List (BitVec 32)} (h : c.keepPresent ns = .accepted ns') :
    c.keepPresent ns' = .accepted ns' := by
  unfold Channel.keepPresent at h ⊢
  split_ifs at h ⊢
  · obtain ⟨kept, hkept, h⟩ := Outcome.bind_accepted.1 h
    split_ifs at h with hne
    obtain rfl := Outcome.accepted.inj h
    rw [eraseMissing_again hkept, Outcome.bind, if_neg hne]
  · rfl

end Files

/-! ## All lists -/

section Lists

variable {Name T : Type} {c : Channel Name T} {s s' : State} {ns : List (BitVec 32)} {xs : List (ℕ × List ℕ)}

theorem length_resize {T : Type} (v : List T) (n : ℕ) (value : T) : (resize v n value).length = n := by
  rw [resize, List.length_append, List.length_take, List.length_replicate]
  omega

theorem length_resized (waveFrontList : List (BitVec 32)) (n : ℕ) : (c.resized waveFrontList n).length = n := by
  unfold Channel.resized
  split_ifs with h
  · exact length_resize _ _ _
  · exact not_not.1 h

/-- The lists for these files. -/
def Channel.lists (c : Channel Name T) (waveFrontList ns : List (BitVec 32)) (xs : List (ℕ × List ℕ)) : State where
  fileNumbers := ns
  waveFrontList :=
    if ns.length ≠ (xs.map Prod.fst).sum % 2 ^ 32 then (xs.flatMap Prod.snd).map (BitVec.ofNat 32)
    else List.zipWith (· + ·) (c.resized waveFrontList ns.length) ns
  nFrames := xs.map Prod.fst
  frameNumbersPerFile := xs.map Prod.snd
  nTotalFrames := BitVec.ofNat 32 (xs.map Prod.fst).sum

/-- Without numbers, a number is added that is not there. -/
theorem makeLists_accepted {waveFrontList : List (BitVec 32)} :
    c.makeLists waveFrontList ns xs = .accepted s ↔ ns ≠ [] ∧ s = c.lists waveFrontList ns xs := by
  unfold Channel.makeLists
  dsimp only
  rw [length_resized, if_pos rfl]
  by_cases hns : ns = []
  · rw [hns, if_pos ⟨rfl, Nat.one_pos⟩]
    exact iff_of_false nofun fun h => h.1 rfl
  · have hlength : max 1 ns.length = ns.length := max_eq_right (List.length_pos_iff.2 hns)
    rw [hlength, if_neg fun h => Nat.lt_irrefl _ h.2, BitVec.toNat_ofNat, Outcome.accepted.injEq, and_iff_right hns]
    exact eq_comm

/-- **What `checkData` accepts**: files with numbers. -/
theorem checkData_accepted : c.checkData s = .accepted s' ↔ ∃ ns xs, c.keepPresent s.fileNumbers = .accepted ns ∧
    ns ≠ [] ∧ c.checkFiles ns s.nFrames = .accepted xs ∧ s' = c.lists s.waveFrontList ns xs := by
  unfold Channel.checkData
  simp only [Outcome.bind_accepted, makeLists_accepted]
  constructor
  · rintro ⟨ns, hns, xs, hxs, hne, rfl⟩
    rw [if_neg hne] at hxs
    exact ⟨ns, xs, hns, hne, hxs, rfl⟩
  · rintro ⟨ns, xs, hns, hne, hxs, rfl⟩
    exact ⟨ns, hns, xs, by rw [if_neg hne]; exact hxs, hne, rfl⟩

/-- **A second call** goes by the same files, and starts from the wavefronts that there are. -/
theorem checkData_again {waveFrontList ns' : List (BitVec 32)} {nFrames : List ℕ}
    (hns : c.keepPresent ns' = .accepted ns) (hne : ns ≠ []) (hxs : c.checkFiles ns nFrames = .accepted xs) :
    c.checkData (c.lists waveFrontList ns xs) =
      .accepted (c.lists (c.lists waveFrontList ns xs).waveFrontList ns xs) :=
  checkData_accepted.2 ⟨ns, xs, keepPresent_again hns, hne, checkFiles_again hxs, rfl⟩

theorem zipWith_add_self : ∀ {ws ns : List (BitVec 32)}, ws.length = ns.length →
    (List.zipWith (· + ·) ws ns = ws ↔ ∀ n ∈ ns, n = 0)
  | [], [], _ => iff_of_true rfl fun n hn => absurd hn List.not_mem_nil
  | w :: ws, n :: ns, h => by
    rw [List.zipWith_cons_cons, List.cons_eq_cons, zipWith_add_self (Nat.succ.inj h), List.forall_mem_cons]
    exact and_congr_left' BitVec.add_right_eq_self

/-- The lists stay, unless numbers are added to the wavefronts once more. -/
theorem lists_again {waveFrontList : List (BitVec 32)} :
    c.lists (c.lists waveFrontList ns xs).waveFrontList ns xs = c.lists waveFrontList ns xs ↔
      (ns.length = (xs.map Prod.fst).sum % 2 ^ 32 → ∀ n ∈ ns, n = 0) := by
  unfold Channel.lists
  simp only [State.mk.injEq, true_and, and_true]
  by_cases hcount : ns.length = (xs.map Prod.fst).sum % 2 ^ 32
  · have hlength : (List.zipWith (· + ·) (c.resized waveFrontList ns.length) ns).length = ns.length := by
      rw [List.length_zipWith, length_resized, min_self]
    rw [if_neg (not_not.2 hcount), if_neg (not_not.2 hcount), forall_prop_of_true hcount, ← zipWith_add_self hlength,
      Channel.resized, if_neg (not_not.2 hlength)]
  · rw [if_pos hcount, if_pos hcount]
    exact iff_of_true rfl fun h => absurd h hcount

end Lists

end Redux.Momfbd.Frames
