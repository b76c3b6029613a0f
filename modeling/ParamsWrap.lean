import ParamsWrap.Edit.Session
import ParamsWrap.Main
import ParamsWrap.Pattern.Call
import ParamsWrap.Proofs.Backtracking
import ParamsWrap.Proofs.PatternSearch
import ParamsWrap.Proofs.Derivations
import ParamsWrap.Proofs.Attempt
import ParamsWrap.Proofs.Cut
import ParamsWrap.Proofs.Splice
import ParamsWrap.Proofs.Recognition
import ParamsWrap.Proofs.Rewrapping
import ParamsWrap.Proofs.Respacing
import ParamsWrap.Proofs.Resolution
import ParamsWrap.Proofs.WrapFile
import ParamsWrap.Proofs.Saving
import ParamsWrap.Proofs.History
import ParamsWrap.Proofs.Snapshots
import ParamsWrap.Proofs.Generations
import ParamsWrap.Proofs.Appending
import ParamsWrap.Proofs.Arguments
import ParamsWrap.Proofs.Running
import ParamsWrap.Proofs.Printing
import ParamsWrap.Proofs.Nesting
import ParamsWrap.Proofs.Content
import ParamsWrap.Proofs.Requests
