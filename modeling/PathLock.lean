import PathLock.Config.Writer
import PathLock.Lock.Record
import PathLock.Lock.Session
import PathLock.Main
import PathLock.Proofs.Config.RoundTrip
import PathLock.Proofs.Lock.Agreement
import PathLock.Proofs.Lock.Eager
import PathLock.Proofs.Lock.Exchange
import PathLock.Proofs.Lock.Failure
import PathLock.Proofs.Lock.Handles
import PathLock.Proofs.Lock.Holding
import PathLock.Proofs.Lock.Lifetime
import PathLock.Proofs.Lock.Protection
import PathLock.Proofs.Lock.Release
import PathLock.Proofs.Lock.Safety
import PathLock.Proofs.Lock.Spans
import PathLock.Proofs.Lock.Sweep
import PathLock.Proofs.Lock.Tokens
import PathLock.Proofs.Lock.Undo
import PathLock.Proofs.Lock.Vacancy
import PathLock.Proofs.Path.Ancestors
import PathLock.Proofs.Path.Cleaning
import PathLock.Proofs.Path.Segments
import PathLock.Proofs.Queue.Runs
import PathLock.Proofs.Replay.Relative
import PathLock.Proofs.Replay.Reports
import PathLock.Proofs.Timeout.NormalForm
