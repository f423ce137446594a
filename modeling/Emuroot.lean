import Emuroot.Proof.Access
import Emuroot.Proof.ArgsKept
import Emuroot.Proof.AcrossRuns
import Emuroot.Proof.AtCalls
import Emuroot.Proof.BindMount
import Emuroot.Proof.Chroot
import Emuroot.Proof.CommandLine
import Emuroot.Proof.Confined
import Emuroot.Proof.Creators
import Emuroot.Proof.Disk
import Emuroot.Proof.ElfInterp
import Emuroot.Proof.Elsewhere
import Emuroot.Proof.ExecArgs
import Emuroot.Proof.ExecBlock
import Emuroot.Proof.ExecLayout
import Emuroot.Proof.ExitBuffers
import Emuroot.Proof.Expansion
import Emuroot.Proof.Exports
import Emuroot.Proof.FastPath
import Emuroot.Proof.Filter
import Emuroot.Proof.ForkOrder
import Emuroot.Proof.Giveaway
import Emuroot.Proof.Grants
import Emuroot.Proof.GrantsInside
import Emuroot.Proof.HostSide
import Emuroot.Proof.Isolation
import Emuroot.Proof.KernelChecks
import Emuroot.Proof.LeftAlone
import Emuroot.Proof.Lifetimes
import Emuroot.Proof.Links
import Emuroot.Proof.LiveTable
import Emuroot.Proof.LoaderCache
import Emuroot.Proof.Neutralize
import Emuroot.Proof.NoRegain
import Emuroot.Proof.NewRoot
import Emuroot.Proof.NoneLeft
import Emuroot.Proof.OpenHow
import Emuroot.Proof.Options
import Emuroot.Proof.Parity
import Emuroot.Proof.PeekPoke
import Emuroot.Proof.Permissions
import Emuroot.Proof.Precedence
import Emuroot.Proof.ProcLinks
import Emuroot.Proof.ProgramLinks
import Emuroot.Proof.ProgramName
import Emuroot.Proof.ProgramRecords
import Emuroot.Proof.ReadStr
import Emuroot.Proof.RealIds
import Emuroot.Proof.Registers
import Emuroot.Proof.RegsAccess
import Emuroot.Proof.RelativeExec
import Emuroot.Proof.ReportedPaths
import Emuroot.Proof.Rounds
import Emuroot.Proof.SavedOwners
import Emuroot.Proof.Scratch
import Emuroot.Proof.ScriptChain
import Emuroot.Proof.SharedRoot
import Emuroot.Proof.Shebang
import Emuroot.Proof.Signals
import Emuroot.Proof.Sockaddr
import Emuroot.Proof.Stdio
import Emuroot.Proof.Subtree
import Emuroot.Proof.Textbook
import Emuroot.Proof.TwoResults
import Emuroot.Proof.Umount
import Emuroot.Proof.UnameShown
import Emuroot.Proof.Unconfigured
import Emuroot.Proof.Uncovered
import Emuroot.Proof.WholeNames
import Emuroot.Proof.WorkingDir
